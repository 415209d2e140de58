import GradientFallback.Proofs.Token.Respelling

/-! # Texts of blanks, comments, letters and exclamation marks

What stands between a value and the sign that ends it is quiet: a mark of importance, blanks and
comments.  Such a text can be read in front of any sign, and its tokens neither open nor end
anything.
-/
namespace GradientFallback

/-- Trivia, identifiers and the exclamation mark. -/
def TokenKind.isQuiet : TokenKind → Bool
  | whitespace => true
  | comment _ => true
  | ident _ => true
  | delim c => c == '!'
  | _ => false

def Token.AllQuiet (ts : List Token) : Prop := ∀ t ∈ ts, t.kind.isQuiet = true

namespace Scan

/-- The characters of a mark of importance and of the blanks around it. -/
def isMarkChar (c : Char) : Bool := isBlank c || isLetter c || c == '!'

/-- A text of such characters and closed comments. -/
inductive Quiet : List Char → Prop
  | nil : Quiet []
  | char {c : Char} {cs : List Char} (mark : isMarkChar c = true) (rest : Quiet cs) : Quiet (c :: cs)
  | comment (cs : List Char) {ds : List Char} (rest : Quiet ds) :
      Quiet ('/' :: '*' :: (commentContent cs ++ ['*', '/']) ++ ds)

theorem Quiet.of_chars {cs : List Char} (h : ∀ c ∈ cs, isMarkChar c = true) : Quiet cs := by
  induction cs with
  | nil => exact .nil
  | cons c cs ih =>
    exact .char (h c List.mem_cons_self) (ih fun d hd => h d (List.mem_cons_of_mem c hd))

theorem Quiet.append {cs ds : List Char} (h : Quiet cs) (h' : Quiet ds) : Quiet (cs ++ ds) := by
  induction h with
  | nil => exact h'
  | char mark _ ih => exact .char mark ih
  | comment content _ ih =>
    rw [List.append_assoc]
    exact .comment content ih

theorem Quiet.dropWhile {cs : List Char} (h : Quiet cs) {p : Char → Bool} (hp : p '/' = false) :
    Quiet (cs.dropWhile p) := by
  induction h with
  | nil => exact .nil
  | @char c cs mark rest ih =>
    rw [List.dropWhile_cons]
    split
    · exact ih
    · exact .char mark rest
  | comment content rest _ =>
    rw [List.cons_append, List.dropWhile_cons, hp]
    exact .comment content rest

theorem Quiet.head {cs : List Char} (h : Quiet cs) : ∀ c ∈ cs.head?, isMarkChar c = true ∨ c = '/' := by
  cases h with
  | nil => exact nofun
  | char mark rest =>
    intro c hc
    cases hc
    exact .inl mark
  | comment content rest =>
    intro c hc
    cases hc
    exact .inr rfl

theorem ne_of_class {p : Char → Bool} {c d : Char} (hc : p c = true) (hd : p d = false) : c ≠ d := by
  rintro rfl
  rw [hd] at hc
  exact absurd hc nofun

theorem isLetter_iff {c : Char} : isLetter c = true ↔
    (97 ≤ c.toNat ∧ c.toNat ≤ 122) ∨ (65 ≤ c.toNat ∧ c.toNat ≤ 90) := by
  simp only [isLetter, Bool.or_eq_true, Bool.and_eq_true, decide_eq_true_eq, Char.le_def,
    UInt32.le_iff_toNat_le]
  rfl

theorem isBlank_of_isLetter {c : Char} (hc : isLetter c = true) : isBlank c = false := by
  rw [isLetter_iff] at hc
  simp only [isBlank, Bool.or_eq_false_iff, Bool.and_eq_false_iff, decide_eq_false_iff_not,
    beq_eq_false_iff_ne]
  omega

theorem isDigit_of_isLetter {c : Char} (hc : isLetter c = true) : isDigit c = false := by
  rw [isLetter_iff] at hc
  have hdigit : isDigit c = true ↔ 48 ≤ c.toNat ∧ c.toNat ≤ 57 := by
    simp only [isDigit, Bool.and_eq_true, decide_eq_true_eq, Char.le_def, UInt32.le_iff_toNat_le]
    rfl
  rw [← Bool.not_eq_true, hdigit]
  omega

theorem isLetter_of_toLower {c : Char} (h : isLetter c.toLower = true) : isLetter c = true := by
  by_cases hc : c.toLower = c
  · rwa [hc] at h
  · have hupper : 'A' ≤ c ∧ c ≤ 'Z' := by
      by_contra hnot
      exact hc (dif_neg hnot)
    simp [isLetter, hupper]

theorem isLetter_of_sameLetters {cs : List Char} {text : String}
    (h : sameLetters (String.ofList cs) text = true)
    (htext : ∀ c ∈ text.toList, isLetter c.toLower = true) : ∀ c ∈ cs, isLetter c = true := by
  intro c hc
  have hlower : cs.map Char.toLower = text.toList.map Char.toLower := by
    simp only [sameLetters, lowerCase, String.toList_ofList, beq_iff_eq] at h
    rwa [← String.ofList_inj]
  have hmem : c.toLower ∈ text.toList.map Char.toLower := by
    rw [← hlower]
    exact List.mem_map_of_mem hc
  obtain ⟨d, hd, hdc⟩ := List.mem_map.1 hmem
  apply isLetter_of_toLower
  rw [← hdc]
  exact htext d hd

theorem startsNumber_of_isLetter {c : Char} (hc : isLetter c = true) (cs : List Char) :
    startsNumber (c :: cs) = false := by
  have hplus : c ≠ '+' := ne_of_class hc (by decide)
  have hminus : c ≠ '-' := ne_of_class hc (by decide)
  have hpoint : c ≠ '.' := ne_of_class hc (by decide)
  have hsign : signPart (c :: cs) = [] := by simp [signPart, hplus, hminus]
  have hdigits : digitsPart (c :: cs) = [] := by simp [digitsPart, isDigit_of_isLetter hc]
  have hfraction : fractionPart (c :: cs) = [] :=
    fractionPart.eq_2 _ fun ds heq => hpoint (List.cons.inj heq).1
  simp [startsNumber, startsUnsigned, hsign, hdigits, hfraction]

/-- What starts with a letter is an identifier, a function or an address. -/
theorem token_of_isLetter {c : Char} (hc : isLetter c = true) (cs : List Char) :
    token (c :: cs) = some (identLike (c :: cs)) := by
  have hident : startsIdent (c :: cs) = true := by
    rw [startsIdent_cons, if_neg (ne_of_class hc (by decide)), startsPlainName_cons,
      if_neg (ne_of_class hc (by decide))]
    simp [isNameStart, hc]
  have hquote : ¬(c = '"' ∨ c = '\'') :=
    not_or.2 ⟨ne_of_class hc (by decide), ne_of_class hc (by decide)⟩
  have hminus : c ≠ '-' := ne_of_class hc (by decide)
  have hless : c ≠ '<' := ne_of_class hc (by decide)
  have hslash : c ≠ '/' := ne_of_class hc (by decide)
  have hother : other c cs = identLike (c :: cs) := by
    rw [other, if_neg (by simp [isBlank_of_isLetter hc]), if_neg hquote,
      if_neg (ne_of_class hc (by decide)), if_neg (ne_of_class hc (by decide)),
      if_neg (by simp [startsNumber_of_isLetter hc]), if_neg fun h => hminus h.1,
      if_neg fun h => hless h.1, if_pos hident]
  rw [token_cons fun h => hslash h.1, punctuation?_eq_none (by decide) (by decide) hc, hother]

/-- No name and no parenthesis goes on here. -/
def EndsName (z : List Char) : Prop :=
  segment (escapeOr isNameChar) z = [] ∧ z.head? ≠ some '('

theorem segment_of_head {z : List Char} (hz : ∀ d ∈ z.head?, isNameChar d = false ∧ d ≠ '\\') :
    segment (escapeOr isNameChar) z = [] := by
  cases z with
  | nil => rfl
  | cons d z =>
    obtain ⟨hname, hslash⟩ := hz d rfl
    apply segment_of_none
    unfold escapeOr
    rw [escape?_eq_none (by simpa using hslash)]
    simp [hname]

theorem endsName_of_head {z : List Char}
    (hz : ∀ d ∈ z.head?, isNameChar d = false ∧ d ≠ '\\' ∧ d ≠ '(') : EndsName z :=
  ⟨segment_of_head fun d hd => ⟨(hz d hd).1, (hz d hd).2.1⟩, fun hparen => (hz '(' hparen).2.2 rfl⟩

/-- A run of name characters that starts with a letter is an identifier. -/
theorem token_ident {c : Char} {u z : List Char} (hc : isLetter c = true)
    (hu : ∀ d ∈ u, isNameChar d = true) (hz : EndsName z) :
    token (c :: u ++ z) = some (.ident (String.ofList (c :: u)), (c :: u).length) := by
  have hchars : ∀ d ∈ c :: u, isNameChar d = true :=
    List.forall_mem_cons.2 ⟨by simp [isNameChar, isNameStart, hc], hu⟩
  rw [List.cons_append, token_of_isLetter hc, ← List.cons_append]
  simp only [identLike, name_of_chars hchars hz.1, List.drop_left]
  split
  · exact absurd rfl hz.2
  · rfl

theorem name_append_width {u : List Char} (hu : ∀ d ∈ u, isNameChar d = true) (z : List Char) :
    (name (u ++ z)).2 = u.length + (name z).2 := by
  induction u with
  | nil => exact (Nat.zero_add _).symm
  | cons c u ih =>
    rw [List.cons_append, name_cons (hu c List.mem_cons_self),
      ih fun d hd => hu d (List.mem_cons_of_mem c hd), List.length_cons]
    omega

theorem segment_of_width {α : Type} {step : Step Char α} {cs : List Char}
    (h : Piece.width (segment step cs) = 0) : segment step cs = [] := by
  rcases segment_cases step cs with hnil | ⟨v, n, hcs, hn, hread, -⟩
  · exact hnil
  · exact absurd h (Nat.ne_of_gt (width_segment_pos step hcs hread hn))

theorem name_width_le_identLike (cs : List Char) : (name cs).2 ≤ (identLike cs).2 := by
  simp only [identLike]
  split
  · split <;> simp only <;> omega
  · exact Nat.le_refl _

/-- A run of name characters that no token goes beyond ends a name. -/
theorem endsName_of_token {c : Char} {u z : List Char} {k : TokenKind} {n : Nat}
    (hc : isLetter c = true) (hu : ∀ d ∈ u, isNameChar d = true)
    (h : token (c :: u ++ z) = some (k, n)) (hn : n ≤ (c :: u).length) : EndsName z := by
  have hchars : ∀ d ∈ c :: u, isNameChar d = true :=
    List.forall_mem_cons.2 ⟨by simp [isNameChar, isNameStart, hc], hu⟩
  have hwidth := name_append_width hchars z
  rw [List.cons_append, token_of_isLetter hc, ← List.cons_append, Option.some.injEq] at h
  have hlength : (identLike (c :: u ++ z)).2 ≤ (c :: u).length := by
    rw [h]
    exact hn
  have hle := name_width_le_identLike (c :: u ++ z)
  have hzero : (name z).2 = 0 := by omega
  refine ⟨segment_of_width hzero, fun hparen => ?_⟩
  obtain ⟨z, rfl⟩ := List.head?_eq_some_iff.1 hparen
  have hdrop : (c :: u ++ '(' :: z).drop (name (c :: u ++ '(' :: z)).2 = '(' :: z := by
    rw [hwidth, hzero, Nat.add_zero, List.drop_left]
  have hlonger : (c :: u).length < (identLike (c :: u ++ '(' :: z)).2 := by
    simp only [identLike, hdrop]
    split <;> simp only <;> omega
  omega

theorem EndsName.alike {front x y : List Char} (h : EndsName (front ++ x)) (halike : Alike x y) :
    EndsName (front ++ y) := by
  have hhead := halike.head?
  obtain ⟨c, xs, ys, hc, hslash, rfl, rfl⟩ := halike
  refine ⟨?_, ?_⟩
  · rw [segment_steady (steady_escapeOr isNameChar) (List.cons_ne_nil c xs) (List.cons_ne_nil c ys)
      (by rw [h.1]; exact Nat.zero_le _) (.inr ⟨c, xs, ys, hc, hslash, rfl, rfl⟩), h.1]
  · cases front with
    | nil => exact h.2
    | cons d front => exact h.2

theorem dropWhile_head {p : Char → Bool} {cs : List Char} :
    ∀ d ∈ (cs.dropWhile p).head?, p d = false := by
  intro d hd
  have h := List.head?_dropWhile_not p cs
  rw [Option.mem_def.1 hd] at h
  exact h

/-- What stands in front of a sign is either a character of the text or the sign. -/
theorem head_append_cons {cs after : List Char} {c : Char} {P : Char → Prop}
    (hcs : ∀ d ∈ cs.head?, P d) (hc : P c) : ∀ d ∈ (cs ++ c :: after).head?, P d := by
  cases cs with
  | nil =>
    intro d hd
    cases hd
    exact hc
  | cons e cs => exact hcs

/-- The token at the front of a quiet text. -/
theorem Quiet.exists_token {cs : List Char} (h : Quiet cs) (hne : cs ≠ []) {c : Char}
    (hc : isStop c = true) (after : List Char) :
    ∃ u k ds, cs = u ++ ds ∧ u ≠ [] ∧ k.isQuiet = true ∧ Quiet ds ∧
      token (u ++ (ds ++ c :: after)) = some (k, u.length) := by
  have hclass {p : Char → Bool} (hp : stops.any p = false) : p c = false :=
    Bool.eq_false_iff.2 (List.any_eq_false.1 hp c (mem_stops_of_isStop hc))
  cases h with
  | nil => exact absurd rfl hne
  | comment content rest =>
    exact ⟨_, .comment _, _, rfl, nofun, rfl, rest, token_closed_comment content _⟩
  | @char d ds mark rest =>
    simp only [isMarkChar, Bool.or_eq_true, beq_iff_eq] at mark
    rcases mark with (hblank | hletter) | rfl
    · refine ⟨d :: ds.takeWhile isBlank, .whitespace, ds.dropWhile isBlank, ?_, nofun, rfl,
        rest.dropWhile (by decide), ?_⟩
      · rw [List.cons_append, List.takeWhile_append_dropWhile]
      · rw [token_whitespace_iff (List.cons_ne_nil _ _)]
        exact ⟨List.forall_mem_cons.2 ⟨hblank, fun e he => List.mem_takeWhile_imp he⟩,
          head_append_cons dropWhile_head (hclass (by decide))⟩
    · have hrest := rest.dropWhile (p := isNameChar) (by decide)
      refine ⟨d :: ds.takeWhile isNameChar, .ident (String.ofList (d :: ds.takeWhile isNameChar)),
        ds.dropWhile isNameChar, ?_, nofun, rfl, hrest, ?_⟩
      · rw [List.cons_append, List.takeWhile_append_dropWhile]
      · refine token_ident hletter (fun e he => List.mem_takeWhile_imp he) (endsName_of_head ?_)
        refine head_append_cons (fun e he => ?_) ⟨hclass (by decide), ?_, ?_⟩
        · have hnot : e ≠ '\\' ∧ e ≠ '(' := by
            rcases hrest.head e he with hmark | rfl
            · exact ⟨ne_of_class hmark (by decide), ne_of_class hmark (by decide)⟩
            · exact ⟨by decide, by decide⟩
          exact ⟨dropWhile_head e he, hnot⟩
        · exact ne_of_class hc (by decide)
        · exact ne_of_class hc (by decide)
    · exact ⟨['!'], .delim '!', ds, rfl, nofun, rfl, rest, rfl⟩

/-- A quiet text is read in front of every sign, and its tokens are quiet. -/
theorem exists_quiet {cs : List Char} (h : Quiet cs) {c : Char} (hc : isStop c = true)
    (after : List Char) :
    ∃ ts, Token.source ts = cs ∧ Token.AllQuiet ts ∧ Token.Spelled ts (c :: after) := by
  induction hl : cs.length using Nat.strongRecOn generalizing cs with
  | ind l ih =>
    by_cases hne : cs = []
    · exact ⟨[], hne.symm, nofun, trivial⟩
    obtain ⟨u, k, ds, rfl, hu, hk, hds, hread⟩ := h.exists_token hne hc after
    have hshort : ds.length < l := by
      have hpos := List.length_pos_iff.2 hu
      rw [← hl, List.length_append]
      omega
    obtain ⟨ts, hsource, hquiet, hspelled⟩ := ih _ hshort hds rfl
    refine ⟨⟨k, .origin, u⟩ :: ts, by rw [Token.source_cons, hsource],
      List.forall_mem_cons.2 ⟨hk, hquiet⟩, ?_, hspelled⟩
    rw [hsource]
    exact hread

end Scan

namespace Token

/-- Trivia that something follows are written with quiet characters. -/
theorem Spelled.quiet {ts : List Token} {x : List Char} (h : Spelled ts x) (hts : AllTrivia ts)
    (hx : x ≠ []) : Scan.Quiet (source ts) := by
  induction ts with
  | nil => exact .nil
  | cons t ts ih =>
    have hrest := ih h.2 fun u hu => hts u (List.mem_cons_of_mem t hu)
    have htrivia := hts t List.mem_cons_self
    have ht := h.1
    unfold isTrivia TokenKind.isTrivia at htrivia
    split at htrivia
    · next hkind =>
      rw [hkind, Scan.token_whitespace_iff (text_ne_nil h.1)] at ht
      exact (Scan.Quiet.of_chars fun c hc => by simp [Scan.isMarkChar, ht.1 c hc]).append hrest
    · next content hkind =>
      rw [source_cons, text_of_comment_of_ne_nil (by simp [hx]) ht hkind]
      rw [hkind] at ht
      obtain ⟨ds, -, rfl, -⟩ := (Scan.reading_of_token ht).of_comment
      rw [String.toList_ofList]
      exact .comment ds hrest
    · exact absurd htrivia nofun

theorem nest_of_isQuiet {k : TokenKind} (h : k.isQuiet = true) (depth : Nat) : nest depth k = depth := by
  cases k <;> simp_all [TokenKind.isQuiet, nest, TokenKind.opens, TokenKind.closes]

theorem depthBehind_quiet {ts : List Token} (h : AllQuiet ts) (depth : Nat) :
    depthBehind depth ts = depth :=
  depthBehind_level (fun t ht => nest_of_isQuiet (h t ht)) depth

theorem passes_quiet {stop : TokenKind → Bool} {ts : List Token}
    (hstop : ∀ k : TokenKind, k.isQuiet = true → stop k = false) (h : AllQuiet ts) (depth : Nat) :
    Passes stop depth ts := passes_of_forall (fun t ht => hstop _ (h t ht)) depth

end Token
end GradientFallback
