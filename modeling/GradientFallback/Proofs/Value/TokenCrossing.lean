import GradientFallback.Proofs.Value.Crossing

/-! # Crossing a token of a value

The cut of a value knows of quotes, parentheses and backslashes and of nothing else.  Yet it crosses
every token but a comma outside of parentheses, and counts the parentheses among the tokens.  Three
kinds of tokens can mislead it: a comment with quotes, commas or parentheses in it, a string that a
line end breaks off, and a broken address with quotes or with a parenthesis more.
-/
namespace GradientFallback
namespace Comma

/-! ## Strings, addresses and comments -/

/-- The state outside quotes with `d` parentheses open. -/
def State.outside (d : Nat) : State := ⟨d, none, false⟩

theorem calm_outside (d : Nat) : (State.outside d).Calm := ⟨rfl, nofun⟩

/-- Between parentheses a comma does not separate. -/
theorem idle_comma (d : Nat) : (State.outside (d + 1)).Idle ',' := by
  simp [State.Idle, State.next, State.separates, State.outside]

section Quoted

variable {q : Char}

theorem calm_quoted (d : Nat) (hq : q = '"' ∨ q = '\'') : State.Calm ⟨d, some q, false⟩ :=
  ⟨rfl, fun _ hmem => Option.some.inj hmem ▸ hq⟩

theorem crosses_stringStep (d : Nat) (hq : q = '"' ∨ q = '\'') {cs : List Char}
    {a : Option Char} {n : Nat} (hread : Scan.stringStep q cs = some (a, n)) :
    n ≤ cs.length ∧ Crosses ⟨d, some q, false⟩ ⟨d, some q, false⟩ n cs := by
  have hcalm := calm_quoted d hq
  unfold Scan.stringStep at hread
  split at hread
  · next ds =>
    cases hread
    exact ⟨by simp, crosses_escaped hcalm '\n' ds⟩
  · obtain ⟨⟨c, m⟩, hpiece, heq⟩ := Option.map_eq_some_iff.1 hread
    cases heq
    refine ⟨(Scan.escapeOr_width hpiece).2, crosses_escapeOr hcalm hpiece fun _ hc => ?_⟩
    by_cases hslash : c = '\\'
    · exact .inl hslash
    · rw [Bool.and_eq_true, bne_iff_ne] at hc
      exact .inr (by simp [State.Idle, State.next, State.separates, hslash, hc.1])

theorem crosses_openingQuote (d : Nat) (hq : q = '"' ∨ q = '\'') (cs : List Char) :
    Crosses (.outside d) ⟨d, some q, false⟩ 1 (q :: cs) := by
  have hseparates : (State.outside d).separates q = false := by
    rcases hq with rfl | rfl <;> simp [State.separates]
  have hnext : (State.outside d).next q = ⟨d, some q, false⟩ := by
    rcases hq with rfl | rfl <;> simp [State.next, State.outside]
  exact .one hnext hseparates cs

theorem crosses_closingQuote (d : Nat) (hq : q = '"' ∨ q = '\'') (cs : List Char) :
    Crosses ⟨d, some q, false⟩ (.outside d) 1 (q :: cs) := by
  have hnext : State.next ⟨d, some q, false⟩ q = .outside d := by
    rcases hq with rfl | rfl <;> simp [State.next, State.outside]
  exact .one hnext (by simp [State.separates]) cs

/-- A string that no line end breaks off. -/
theorem crosses_string (d : Nat) (hq : q = '"' ∨ q = '\'') (cs : List Char)
    (hwhole : ∀ content, (Scan.string q cs).1 ≠ .badString content) :
    Crosses (.outside d) (.outside d) (Scan.string q cs).2 (q :: cs) := by
  obtain ⟨width, hwidth⟩ : ∃ width, Piece.width (segment (Scan.stringStep q) cs) = width := ⟨_, rfl⟩
  have hinside : Crosses (.outside d) ⟨d, some q, false⟩ (1 + width) (q :: cs) := by
    rw [← hwidth]
    exact (crosses_openingQuote d hq cs).trans (crosses_segment (P := fun _ => True)
      (fun _ _ _ hread _ => crosses_stringStep d hq hread) fun _ _ => trivial)
  have hdrop : (q :: cs).drop (1 + width) = cs.drop width := by
    rw [Nat.add_comm, List.drop_succ_cons]
  simp only [Scan.string, hwidth] at hwhole ⊢
  rcases hbehind : cs.drop width with _ | ⟨c, ds⟩
  · exact hinside.at_end (hdrop.trans hbehind) _
  · rw [hbehind] at hwhole
    dsimp only at hwhole ⊢
    by_cases hc : c = q
    · subst hc
      have htotal : 2 + width = 1 + width + 1 := by omega
      rw [if_pos rfl, htotal]
      apply hinside.trans
      rw [hdrop, hbehind]
      exact crosses_closingQuote d hq ds
    · rw [if_neg hc] at hwhole
      exact absurd rfl (hwhole _)

end Quoted

theorem crosses_leftParen (d : Nat) (cs : List Char) :
    Crosses (.outside d) (.outside (d + 1)) 1 ('(' :: cs) := by
  have hnext : (State.outside d).next '(' = .outside (d + 1) := by
    simp [State.next, State.outside]
  exact .one hnext (by simp [State.separates]) cs

theorem crosses_rightParen (d : Nat) (cs : List Char) :
    Crosses (.outside d) (.outside (d - 1)) 1 (')' :: cs) := by
  have hnext : (State.outside d).next ')' = .outside (d - 1) := by
    simp [State.next, State.outside]
  exact .one hnext (by simp [State.separates]) cs

/-- The characters behind the opening parenthesis of an address that would mislead a cut. -/
def urlSigns : List Char := ['(', '"', '\'']

theorem idle_of_not_mem_urlSigns (d : Nat) {c : Char} (hsign : c ∉ urlSigns) (hclose : c ≠ ')')
    (hslash : c ≠ '\\') : (State.outside (d + 1)).Idle c := by
  by_cases hcomma : c = ','
  · subst hcomma
    exact idle_comma d
  · apply (calm_outside (d + 1)).idle
    simp only [urlSigns, signs, List.mem_cons, List.not_mem_nil, or_false, not_or] at hsign ⊢
    exact ⟨hslash, hcomma, hsign.1, hclose, hsign.2⟩

/-- A broken address is passed up to the next closing parenthesis or to the end. -/
theorem crosses_brokenUrl (d : Nat) {cs : List Char}
    (hclear : ∀ c ∈ cs.take (Scan.brokenUrlWidth cs), c ∉ urlSigns) :
    Crosses (.outside (d + 1)) (.outside d) (Scan.brokenUrlWidth cs) cs := by
  obtain ⟨width, hwidth⟩ :
    ∃ width, Piece.width (segment (Scan.escapeOr fun c => c != ')') cs) = width := ⟨_, rfl⟩
  have hinside : Crosses (.outside (d + 1)) (.outside (d + 1)) width cs := by
    rw [← hwidth]
    refine crosses_segment (P := fun c => c ∉ urlSigns) (fun ds c n hread hds =>
      ⟨(Scan.escapeOr_width hread).2, ?_⟩) fun c hc => hclear c ?_
    · refine crosses_escapeOr (calm_outside (d + 1)) hread fun hmem hc => ?_
      by_cases hslash : c = '\\'
      · exact .inl hslash
      · exact .inr (idle_of_not_mem_urlSigns d (hds c hmem) (bne_iff_ne.1 hc) hslash)
    · exact (List.take_subset_take_left cs (Nat.le_add_right _ _)) hc
  have hstops := segment_drop_width (Scan.escapeOr fun c => c != ')') cs
  simp only [Scan.brokenUrlWidth, hwidth] at hstops ⊢
  rcases hbehind : cs.drop width with _ | ⟨c, ds⟩
  · exact hinside.at_end hbehind _
  · have hclose : c = ')' := by
      by_contra hc
      rw [hbehind] at hstops
      have hsome : (Scan.escapeOr (fun c => c != ')') (c :: ds)).isSome :=
        Scan.escapeOr_isSome (.inr (bne_iff_ne.2 hc))
      obtain ⟨⟨e, n⟩, hread⟩ := Option.isSome_iff_exists.1 hsome
      have hpos := width_segment_pos _ (List.cons_ne_nil c ds) hread (Scan.escapeOr_width hread).1
      rw [hstops] at hpos
      exact absurd hpos (Nat.lt_irrefl 0)
    subst hclose
    apply hinside.trans
    rw [hbehind]
    exact crosses_rightParen (d + 1) ds

/-- An address behind its opening parenthesis. -/
theorem crosses_url (d : Nat) {cs : List Char}
    (hclear : ∀ address, (Scan.url cs).1 = .badUrl address →
      ∀ c ∈ cs.take (Scan.url cs).2, c ∉ urlSigns) :
    Crosses (.outside (d + 1)) (.outside d) (Scan.url cs).2 cs := by
  have hcalm := calm_outside (d + 1)
  obtain ⟨indent, hindent⟩ : ∃ indent, Scan.runLength isBlank cs = indent := ⟨_, rfl⟩
  obtain ⟨width, hwidth⟩ :
    ∃ width, indent +
      Piece.width (segment (Scan.escapeOr Scan.isUrlChar) (cs.drop indent)) = width :=
    ⟨_, rfl⟩
  obtain ⟨gap, hgap⟩ : ∃ gap, Scan.runLength isBlank (cs.drop width) = gap := ⟨_, rfl⟩
  have hinside : Crosses (.outside (d + 1)) (.outside (d + 1)) (width + gap) cs := by
    have hblanks := crosses_blanks hcalm cs
    have haddress := crosses_escapes hcalm (p := Scan.isUrlChar) (fun c hc => ?_) (cs.drop indent)
    · rw [hindent] at hblanks
      have hfront := hblanks.trans haddress
      rw [hwidth] at hfront
      have hbehind := crosses_blanks hcalm (cs.drop width)
      rw [hgap] at hbehind
      exact hfront.trans hbehind
    · by_cases hslash : c = '\\'
      · exact .inl hslash
      · have hurl : urlSigns.any Scan.isUrlChar = false := by decide
        exact .inr (idle_of_not_mem_urlSigns d (fun hmem => List.any_eq_false.1 hurl c hmem hc)
          (Scan.ne_of_class hc (by decide)) hslash)
  simp only [Scan.url, hindent, hwidth, hgap] at hclear ⊢
  rcases hbehind : cs.drop (width + gap) with _ | ⟨c, ds⟩
  · exact hinside.at_end hbehind _
  · rw [hbehind] at hclear
    dsimp only at hclear ⊢
    by_cases hc : c = ')'
    · subst hc
      rw [if_pos rfl]
      apply hinside.trans
      rw [hbehind]
      exact crosses_rightParen (d + 1) ds
    · rw [if_neg hc] at hclear ⊢
      apply hinside.trans
      rw [hbehind]
      refine crosses_brokenUrl d fun e he => hclear _ rfl e ?_
      rw [List.take_add, hbehind]
      exact List.mem_append_right _ he

/-- The characters of a comment that would mislead a cut. -/
def commentSigns : List Char := [',', '(', ')', '"', '\'']

theorem exists_next (d : Nat) (escaped : Bool) {c : Char} (hc : c ∉ commentSigns) :
    ∃ escaped', State.next ⟨d, none, escaped⟩ c = ⟨d, none, escaped'⟩ ∧
      State.separates ⟨d, none, escaped⟩ c = false := by
  simp only [commentSigns, List.mem_cons, List.not_mem_nil, not_or, or_false] at hc
  obtain ⟨hcomma, hopen, hclose, hdouble, hsingle⟩ := hc
  have hseparates : State.separates ⟨d, none, escaped⟩ c = false := by
    simp [State.separates, hcomma]
  cases escaped with
  | true => exact ⟨false, rfl, hseparates⟩
  | false =>
    by_cases hslash : c = '\\'
    · exact ⟨true, by simp [State.next, hslash], hseparates⟩
    · exact ⟨false, by simp [State.next, hslash, hopen, hclose, hdouble, hsingle], hseparates⟩

/-- Characters without signs are passed.  A backslash at their end counts for the character behind
them. -/
theorem exists_crosses (d n : Nat) (escaped : Bool) {cs : List Char}
    (hcs : ∀ c ∈ cs.take n, c ∉ commentSigns) :
    ∃ escaped', Crosses ⟨d, none, escaped⟩ ⟨d, none, escaped'⟩ n cs := by
  induction n generalizing escaped cs with
  | zero => exact ⟨escaped, .refl _ cs⟩
  | succ n ih =>
    cases cs with
    | nil => exact ⟨escaped, rfl⟩
    | cons c cs =>
      rw [List.take_succ_cons, List.forall_mem_cons] at hcs
      obtain ⟨behind, hnext, hseparates⟩ := exists_next d escaped hcs.1
      obtain ⟨escaped', hothers⟩ := ih behind hcs.2
      refine ⟨escaped', ?_⟩
      rw [Nat.add_comm]
      exact (Crosses.one hnext hseparates cs).trans hothers

theorem crosses_slash (d : Nat) (escaped : Bool) (cs : List Char) :
    Crosses ⟨d, none, escaped⟩ (.outside d) 1 ('/' :: cs) := by
  have hnext : State.next ⟨d, none, escaped⟩ '/' = .outside d := by cases escaped <;> rfl
  exact .one hnext (by simp [State.separates]) cs

/-- A comment without signs.  The slash at its end is no sign, even behind a backslash. -/
theorem crosses_comment (d : Nat) {cs : List Char}
    (hclear : ∀ c ∈ ('/' :: '*' :: cs).take (Scan.comment cs).2, c ∉ commentSigns) :
    Crosses (.outside d) (.outside d) (Scan.comment cs).2 ('/' :: '*' :: cs) := by
  obtain ⟨content, hcontent⟩ : ∃ content, Scan.commentContent cs = content := ⟨_, rfl⟩
  have hcases := Scan.commentContent_cases cs
  simp only [Scan.comment, hcontent] at hcases hclear ⊢
  rcases hcases with hopen | ⟨ds, hclosed⟩
  · obtain ⟨escaped, hall⟩ := exists_crosses d _ false hclear
    apply hall.at_end
    apply List.drop_eq_nil_of_le
    simp only [hopen, List.length_cons]
    omega
  · have hdrop : cs.drop content.length = '*' :: '/' :: ds := by
      rw [hclosed, List.drop_left]
    have hwidth : 2 + content.length + ((cs.drop content.length).take 2).length =
        content.length + 3 + 1 := by
      rw [hdrop]
      simp only [List.take_succ_cons, List.take_zero, List.length_cons, List.length_nil]
      omega
    have hbehind : ('/' :: '*' :: cs).drop (content.length + 3) = '/' :: ds := by
      rw [List.drop_succ_cons, List.drop_succ_cons, hclosed, ← List.drop_drop, List.drop_left]
      rfl
    rw [hwidth] at hclear ⊢
    obtain ⟨escaped, hall⟩ := exists_crosses d (content.length + 3) false fun c hc =>
      hclear c (List.take_subset_take_left _ (Nat.le_succ _) hc)
    apply hall.trans
    rw [hbehind]
    exact crosses_slash d escaped ds

/-! ## All tokens -/

end Comma

namespace TokenKind

/-- The number of open parentheses behind a token.  Brackets do not count. -/
def nestParens (depth : Nat) : TokenKind → Nat
  | function _ => depth + 1
  | leftParen => depth + 1
  | rightParen => depth - 1
  | _ => depth

/-- A token that is written with the text holds nothing that would mislead a cut. -/
def isClear (text : List Char) : TokenKind → Bool
  | comment _ => text.all fun c => !Comma.commentSigns.contains c
  | badString _ => false
  | badUrl _ => text.count '(' ≤ 1 && !text.contains '"' && !text.contains '\''
  | _ => true

end TokenKind

namespace Comma

theorem mem_commentSigns_of_isClear {content : String} {text : List Char}
    (h : (TokenKind.comment content).isClear text = true) : ∀ c ∈ text, c ∉ commentSigns := by
  simpa [TokenKind.isClear] using h

/-- A clear address has no quotes and no parenthesis but the one that opens it. -/
theorem not_mem_urlSigns_of_isClear {address : String} {front more : List Char}
    (h : (TokenKind.badUrl address).isClear (front ++ '(' :: more) = true) :
    ∀ c ∈ more, c ∉ urlSigns := by
  have hclear : (List.count '(' front + (List.count '(' more + 1) ≤ 1 ∧ '"' ∉ front ∧ '"' ∉ more) ∧
      '\'' ∉ front ∧ '\'' ∉ more := by
    simpa [TokenKind.isClear] using h
  obtain ⟨⟨hcount, -, hdouble⟩, -, hsingle⟩ := hclear
  have hopen : '(' ∉ more := List.count_eq_zero.1 (by omega)
  intro c hc hsign
  simp only [urlSigns, List.mem_cons, List.not_mem_nil, or_false] at hsign
  rcases hsign with rfl | rfl | rfl
  · exact hopen hc
  · exact hdouble hc
  · exact hsingle hc

theorem identLike_of_paren {cs after : List Char}
    (h : cs.drop (Scan.name cs).2 = '(' :: after) : Scan.identLike cs =
      if sameLetters (Scan.name cs).1 "url" = true ∧ Scan.startsUrl after = true then
        ((Scan.url after).1, (Scan.name cs).2 + 1 + (Scan.url after).2)
      else (.function (Scan.name cs).1, (Scan.name cs).2 + 1) := by
  simp only [Scan.identLike, h]

theorem identLike_of_no_paren {cs : List Char} (h : (cs.drop (Scan.name cs).2).head? ≠ some '(') :
    Scan.identLike cs = (.ident (Scan.name cs).1, (Scan.name cs).2) := by
  simp only [Scan.identLike]
  split
  · next after hbehind =>
    rw [hbehind] at h
    exact absurd rfl h
  · rfl

theorem crosses_identLike (d : Nat) {cs : List Char}
    (hclear : (Scan.identLike cs).1.isClear (cs.take (Scan.identLike cs).2) = true) :
    Crosses (.outside d) (.outside ((Scan.identLike cs).1.nestParens d)) (Scan.identLike cs).2
      cs := by
  have hname := crosses_name (calm_outside d) cs
  by_cases hparen : (cs.drop (Scan.name cs).2).head? = some '('
  · obtain ⟨after, hbehind⟩ := List.head?_eq_some_iff.1 hparen
    have hopen : Crosses (.outside d) (.outside (d + 1)) ((Scan.name cs).2 + 1) cs := by
      apply hname.trans
      rw [hbehind]
      exact crosses_leftParen d after
    rw [identLike_of_paren hbehind] at hclear ⊢
    by_cases hurl : sameLetters (Scan.name cs).1 "url" = true ∧ Scan.startsUrl after = true
    · rw [if_pos hurl] at hclear ⊢
      have hbehindParen : cs.drop ((Scan.name cs).2 + 1) = after := by
        rw [← List.drop_drop, hbehind]
        rfl
      have hnest : (Scan.url after).1.nestParens d = d :=
        Scan.url_kind (P := (·.nestParens d = d)) (fun _ => rfl) (fun _ => rfl) after
      rw [hnest]
      apply hopen.trans
      rw [hbehindParen]
      apply crosses_url d
      intro address hkind
      have htext : cs.take ((Scan.name cs).2 + 1 + (Scan.url after).2) =
          cs.take (Scan.name cs).2 ++ '(' :: after.take (Scan.url after).2 := by
        rw [Nat.add_assoc, List.take_add, hbehind, Nat.add_comm 1, List.take_succ_cons]
      rw [htext, hkind] at hclear
      exact not_mem_urlSigns_of_isClear hclear
    · rw [if_neg hurl]
      exact hopen
  · rw [identLike_of_no_paren hparen]
    exact hname

/-- A character that starts nothing else is passed by itself. -/
theorem crosses_delim (d : Nat) {c : Char} {cs : List Char} (hsign : Scan.punctuation? c = none)
    (hquote : ¬(c = '"' ∨ c = '\'')) (hident : ¬Scan.startsIdent (c :: cs) = true) :
    Crosses (.outside d) (.outside d) 1 (c :: cs) := by
  have hcalm := calm_outside d
  by_cases hslash : c = '\\'
  · subst hslash
    apply crosses_backslash hcalm
    rw [Scan.startsIdent_cons, if_neg (by decide), Scan.startsPlainName, Bool.or_eq_true,
      not_or] at hident
    exact Option.not_isSome_iff_eq_none.1 hident.1
  · apply Crosses.one_idle
    apply hcalm.idle
    intro hmem
    simp only [signs, List.mem_cons, List.not_mem_nil, or_false] at hmem
    rcases hmem with rfl | rfl | rfl | rfl | rfl | rfl
    · exact hslash rfl
    · cases hsign
    · cases hsign
    · cases hsign
    · exact hquote (.inl rfl)
    · exact hquote (.inr rfl)

theorem crosses_other (d : Nat) {c : Char} {cs : List Char} (hsign : Scan.punctuation? c = none)
    (hclear : (Scan.other c cs).1.isClear ((c :: cs).take (Scan.other c cs).2) = true) :
    Crosses (.outside d) (.outside ((Scan.other c cs).1.nestParens d)) (Scan.other c cs).2
      (c :: cs) := by
  have hcalm := calm_outside d
  have hread := Scan.other_reading c cs
  generalize Scan.other c cs = r at hread hclear ⊢
  -- The readers of names apart, none of them gives a kind that nests.
  cases hread with
  | blanks blank =>
    exact (Crosses.one_idle (hcalm.idle_of_class (by decide) blank) cs).trans
      (crosses_blanks hcalm cs)
  | string quote =>
    rw [Scan.string_kind (P := (·.nestParens d = d)) (fun _ => rfl) (fun _ => rfl) c cs]
    apply crosses_string d quote
    intro content hbroken
    rw [hbroken] at hclear
    cases hclear
  | hash sign =>
    subst sign
    rw [Scan.hash_kind (P := (·.nestParens d = d)) rfl (fun _ => rfl) (fun _ => rfl) cs]
    exact crosses_hash hcalm cs
  | atSign sign =>
    subst sign
    rw [Scan.atSign_kind (P := (·.nestParens d = d)) rfl (fun _ => rfl) cs]
    exact crosses_atSign hcalm cs
  | numeric starts =>
    rw [Scan.numeric_kind (P := (·.nestParens d = d)) (fun _ _ => rfl) (fun _ => rfl) (fun _ => rfl)]
    exact crosses_numeric hcalm (c :: cs)
  | commentClose sign more =>
    apply crosses_fixed hcalm (u := ['-', '-', '>']) _ (by decide)
    exact List.cons_prefix_cons.2 ⟨sign.symm, more ▸ List.take_prefix 2 cs⟩
  | commentOpen sign more =>
    apply crosses_fixed hcalm (u := ['<', '!', '-', '-']) _ (by decide)
    exact List.cons_prefix_cons.2 ⟨sign.symm, more ▸ List.take_prefix 3 cs⟩
  | identLike starts => exact crosses_identLike d hclear
  | delim unquoted starts => exact crosses_delim d hsign unquoted starts

theorem crosses_punctuation (d : Nat) {c : Char} {k : TokenKind}
    (hsign : Scan.punctuation? c = some k) (hcomma : k = .comma → d ≠ 0) (cs : List Char) :
    Crosses (.outside d) (.outside (k.nestParens d)) 1 (c :: cs) := by
  unfold Scan.punctuation? at hsign
  split at hsign <;> cases hsign
  · exact crosses_leftParen d cs
  · exact crosses_rightParen d cs
  · exact .one_idle ((calm_outside d).idle (by decide)) cs
  · exact .one_idle ((calm_outside d).idle (by decide)) cs
  · exact .one_idle ((calm_outside d).idle (by decide)) cs
  · exact .one_idle ((calm_outside d).idle (by decide)) cs
  · obtain ⟨e, rfl⟩ := Nat.exists_eq_succ_of_ne_zero (hcomma rfl)
    exact .one_idle (idle_comma e) cs
  · exact .one_idle ((calm_outside d).idle (by decide)) cs
  · exact .one_idle ((calm_outside d).idle (by decide)) cs

/-- A clear token that is no comma outside all parentheses is crossed. -/
theorem crosses_token (d : Nat) {cs : List Char} {k : TokenKind} {n : Nat}
    (hread : Scan.token cs = some (k, n)) (hclear : k.isClear (cs.take n) = true)
    (hcomma : k = .comma → d ≠ 0) : Crosses (.outside d) (.outside (k.nestParens d)) n cs := by
  cases Scan.token_reading hread with
  | comment cs => exact crosses_comment d (mem_commentSigns_of_isClear hclear)
  | punctuation cs sign => exact crosses_punctuation d sign hcomma cs
  | other cs sign => exact crosses_other d sign hclear

end Comma
end GradientFallback
