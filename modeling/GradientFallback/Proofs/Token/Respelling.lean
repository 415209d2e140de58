import GradientFallback.Proofs.Token.Cutting
import GradientFallback.Proofs.Token.Lookahead

/-! # Spelling the same tokens in front of other texts

A spelled list of tokens stays spelled when the text behind it changes in a way that does not reach
the tokens.  Keywords and comments can be written anew: a keyword with its plain name, a comment
with its closing sign.
-/
namespace GradientFallback

namespace Scan

/-! ## Single tokens in front of other texts -/

theorem token_alike {front x y : List Char} {k : TokenKind} {n : Nat} (halike : Alike x y)
    (h : token (front ++ x) = some (k, n)) (hn : n ≤ front.length) :
    token (front ++ y) = some (k, n) := by
  have hne : x ≠ [] ∧ y ≠ [] := by
    obtain ⟨c, xs, ys, -, -, rfl, rfl⟩ := halike
    exact ⟨nofun, nofun⟩
  rw [← h]
  exact steady_token front x y hne.1 hne.2 (by rw [h]; exact hn) (.inr halike)

/-- Two readings that stay in front of what follows are the same. -/
theorem token_agree {front x y : List Char} {k l : TokenKind} {n m : Nat} (hx : x ≠ []) (hy : y ≠ [])
    (h : token (front ++ x) = some (k, n)) (hn : n ≤ front.length)
    (h' : token (front ++ y) = some (l, m)) (hm : m ≤ front.length) : l = k ∧ m = n := by
  have hsame := steady_token front x y hx hy (by rw [h]; exact hn) (.inl (by rw [h']; exact hm))
  rw [h, h', Option.some.injEq, Prod.mk.injEq] at hsame
  exact hsame

/-- What starts with a blank is whitespace. -/
theorem token_of_isBlank {c : Char} (hc : isBlank c = true) (cs : List Char) :
    token (c :: cs) = some (.whitespace, 1 + runLength isBlank cs) := by
  have hslash : ¬(c = '/' ∧ cs.head? = some '*') := by
    rintro ⟨rfl, -⟩
    exact absurd hc (by decide)
  rw [token_cons hslash, punctuation?_eq_none rfl (by decide) hc]
  simp only [other, if_pos hc]

theorem token_whitespace_iff {u z : List Char} (hu : u ≠ []) :
    token (u ++ z) = some (.whitespace, u.length) ↔
      (∀ c ∈ u, isBlank c = true) ∧ ∀ c ∈ z.head?, isBlank c = false := by
  constructor
  · intro h
    obtain ⟨c, ds, hds, hc, hlength⟩ := (reading_of_token h).of_whitespace
    have hrun : (u ++ z).takeWhile isBlank = u := by
      have hprefix : (u ++ z).takeWhile isBlank <+: u ++ z := List.takeWhile_prefix isBlank
      have hlen : ((u ++ z).takeWhile isBlank).length = u.length := by
        rw [hds, List.takeWhile_cons, if_pos hc, hlength, List.length_cons, Nat.add_comm]
        rfl
      exact (List.prefix_of_prefix_length_le hprefix (List.prefix_append u z)
        (Nat.le_of_eq hlen)).eq_of_length hlen
    have hall : ∀ c ∈ u, isBlank c = true := by
      intro d hd
      rw [← hrun] at hd
      exact List.mem_takeWhile_imp hd
    refine ⟨hall, fun d hd => ?_⟩
    obtain ⟨zs, rfl⟩ := List.head?_eq_some_iff.1 hd
    by_contra hblank
    rw [List.takeWhile_append_of_pos hall, List.takeWhile_cons, if_pos (by simpa using hblank)]
      at hrun
    exact absurd (congrArg List.length hrun) (by simp)
  · rintro ⟨hall, hhead⟩
    obtain ⟨c, u, rfl⟩ := List.exists_cons_of_ne_nil hu
    have hc := hall c List.mem_cons_self
    have hrun : runLength isBlank (u ++ z) = u.length := by
      rw [runLength, List.takeWhile_append_of_pos fun d hd => hall d (List.mem_cons_of_mem c hd)]
      cases z with
      | nil => simp
      | cons d z => simp [hhead d rfl]
    rw [List.cons_append, token_of_isBlank hc, hrun, List.length_cons, Nat.add_comm]

theorem token_comment_of_ne_nil {u x : List Char} {content : String} (hx : x ≠ [])
    (h : token (u ++ x) = some (.comment content, u.length)) (y : List Char) :
    token (u ++ y) = some (.comment content, u.length) := by
  obtain ⟨ds, hds, hcontent, hlength⟩ := (reading_of_token h).of_comment
  have htwo : 2 ≤ u.length := by
    rw [hlength]
    simp only [comment]
    omega
  obtain ⟨c, d, u, rfl⟩ : ∃ c d v, u = c :: d :: v := by
    rcases u with _ | ⟨c, _ | ⟨d, u⟩⟩
    · simp at htwo
    · simp at htwo
    · exact ⟨c, d, u, rfl⟩
  simp only [List.cons_append, List.cons.injEq] at hds
  obtain ⟨rfl, rfl, rfl⟩ := hds
  rw [← h]
  simp only [List.cons_append, token_comment]
  rw [comment_here u hx (by rw [← hlength]; rfl) y]

/-! ## Plain names -/

/-- The name can be written as it is: it starts like an identifier and has no other characters than
names have. -/
def IsPlainName (value : String) : Prop :=
  startsIdent value.toList = true ∧ ∀ c ∈ value.toList, isNameChar c = true

theorem escapeOr_nameChar {c : Char} (hc : isNameChar c = true) (cs : List Char) :
    escapeOr isNameChar (c :: cs) = some (c, 1) := by
  have hslash : c ≠ '\\' := by
    rintro rfl
    exact absurd hc nofun
  unfold escapeOr
  rw [escape?_eq_none (by simpa using hslash)]
  exact if_pos hc

/-- A run of name characters is a name, if no name goes on behind it. -/
theorem name_of_chars {u z : List Char} (hu : ∀ c ∈ u, isNameChar c = true)
    (hz : segment (escapeOr isNameChar) z = []) : name (u ++ z) = (String.ofList u, u.length) := by
  have hpieces : segment (escapeOr isNameChar) (u ++ z) = u.map fun c => ⟨c, [c]⟩ := by
    induction u with
    | nil => exact hz
    | cons c u ih =>
      rw [List.cons_append, segment_of_step _ (List.cons_ne_nil c _)
        (escapeOr_nameChar (hu c List.mem_cons_self) _) Nat.one_pos]
      simpa using ih fun d hd => hu d (List.mem_cons_of_mem c hd)
  have hvalues : Piece.values (u.map fun c => (⟨c, [c]⟩ : Piece Char Char)) = u := by
    simp [Piece.values, Function.comp_def]
  have hcovered : Piece.covered (u.map fun c => (⟨c, [c]⟩ : Piece Char Char)) = u := by
    simp [Piece.covered, List.flatMap_map]
  rw [name, hpieces, hvalues, Piece.width, hcovered]

/-- A keyword can be written anew with its name. -/
theorem token_plain_keyword {u z : List Char} {value : String}
    (h : token (u ++ z) = some (.atKeyword value, u.length)) (hplain : IsPlainName value) :
    token ('@' :: value.toList ++ z) = some (.atKeyword value, ('@' :: value.toList).length) := by
  obtain ⟨ds, hds, hident, hvalue, hlength⟩ := (reading_of_token h).of_atKeyword
  obtain ⟨c, u, rfl⟩ : ∃ c v, u = c :: v := by
    refine List.exists_cons_of_ne_nil ?_
    rintro rfl
    simp at hlength
    omega
  obtain ⟨rfl, rfl⟩ := List.cons.inj hds
  have hz : segment (escapeOr isNameChar) z = [] := by
    have hend := segment_drop_width (escapeOr isNameChar) (u ++ z)
    have hwidth : Piece.width (segment (escapeOr isNameChar) (u ++ z)) = u.length := by
      rw [List.length_cons, Nat.add_comm] at hlength
      exact (Nat.add_left_cancel hlength).symm
    rwa [hwidth, List.drop_left] at hend
  have hname := name_of_chars hplain.2 hz
  have hstarts := startsIdent_append hplain.1 z
  have hat : token ('@' :: (value.toList ++ z)) = some (atSign (value.toList ++ z)) := rfl
  rw [List.cons_append, hat, atSign, if_pos hstarts, hname]
  simp [Nat.add_comm]

theorem isNameChar_of_escapeOr {c v : Char} {cs : List Char}
    (h : escapeOr isNameChar (c :: cs) = some (v, 1)) : isNameChar c = true := by
  unfold escapeOr at h
  rcases he : escape? (c :: cs) with _ | ⟨w, n⟩
  · by_contra hc
    simp [he, hc] at h
  · simp only [he, Option.some.injEq, Prod.mk.injEq] at h
    obtain ⟨-, rfl⟩ := h
    by_cases hc : c = '\\'
    · rw [hc] at he
      by_cases hcs : cs = []
      · rw [hcs] at he
        exact absurd he nofun
      · rw [(escape?_last hcs (by rw [he]; exact Nat.le_refl 1)).2] at he
        exact absurd he nofun
    · rw [escape?_eq_none (by simpa using hc)] at he
      exact absurd he nofun

/-- A name that is written with as many characters as it has is written without escapes. -/
theorem isNameChar_of_name (cs : List Char) :
    (name cs).1.toList.length ≤ (name cs).2 ∧
      ((name cs).1.toList.length = (name cs).2 → ∀ c ∈ cs.take (name cs).2, isNameChar c = true) := by
  simp only [name, String.toList_ofList]
  induction cs using segment_induct (escapeOr isNameChar) with
  | ends cs h =>
    rw [h]
    exact ⟨Nat.le_refl 0, fun _ => List.forall_mem_nil _⟩
  | piece cs v n hcs hpos hread h ih =>
    have hn := (escapeOr_width hread).2
    have hvalues : (Piece.values (segment (escapeOr isNameChar) cs)).length =
        (Piece.values (segment (escapeOr isNameChar) (cs.drop n))).length + 1 := by
      rw [h]
      rfl
    rw [hvalues, h, Piece.width_cons, List.length_take, Nat.min_eq_left hn]
    refine ⟨by omega, fun heq => ?_⟩
    obtain rfl : n = 1 := by omega
    obtain ⟨c, cs, rfl⟩ := List.exists_cons_of_ne_nil hcs
    rw [Nat.add_comm, List.take_succ_cons]
    exact List.forall_mem_cons.2 ⟨isNameChar_of_escapeOr hread, ih.2 (by omega)⟩

/-- The plain names are those that a keyword is read back with. -/
theorem isPlainName_iff {value : String} : IsPlainName value ↔
    token ('@' :: value.toList) = some (.atKeyword value, value.toList.length + 1) := by
  have hat (cs : List Char) : token ('@' :: cs) = some (atSign cs) := rfl
  constructor
  · rintro ⟨hstarts, hchars⟩
    have hname := name_of_chars (z := []) hchars rfl
    rw [List.append_nil, String.ofList_toList] at hname
    rw [hat, atSign, if_pos hstarts, hname]
    simp [Nat.add_comm]
  · intro h
    obtain ⟨ds, hds, hstarts, hvalue, hlength⟩ := (reading_of_token h).of_atKeyword
    obtain rfl := (List.cons.inj hds).2
    refine ⟨hstarts, ?_⟩
    have hwidth : (name value.toList).2 = value.toList.length := by omega
    have hall := (isNameChar_of_name value.toList).2 (by rw [← hvalue, hwidth])
    rwa [hwidth, List.take_length] at hall

theorem token_closed_comment (cs z : List Char) :
    token ('/' :: '*' :: (commentContent cs ++ ['*', '/']) ++ z) =
      some (.comment (String.ofList (commentContent cs)),
        ('/' :: '*' :: (commentContent cs ++ ['*', '/'])).length) := by
  have hcontent : commentContent (commentContent cs ++ '*' :: '/' :: z) = commentContent cs := by
    induction cs with
    | nil => rfl
    | cons c cs ih =>
      rw [commentContent_cons]
      split
      · rfl
      · next hopen =>
        have hopen' : ¬(c = '*' ∧ (commentContent cs ++ '*' :: '/' :: z).head? = some '/') := by
          rintro ⟨rfl, hhead⟩
          cases cs with
          | nil => simp [commentContent] at hhead
          | cons d cs =>
            rw [commentContent_cons] at hhead
            split at hhead
            · simp at hhead
            · exact hopen ⟨rfl, hhead⟩
        rw [List.cons_append, commentContent_cons, if_neg hopen', ih]
  have hsplit : commentContent cs ++ ['*', '/'] ++ z = commentContent cs ++ '*' :: '/' :: z := by
    simp
  rw [List.cons_append, List.cons_append, token_comment, comment, hsplit, hcontent, List.drop_left]
  simp only [List.take_succ_cons, List.take_zero, List.length_cons, List.length_append,
    List.length_nil, Option.some.injEq, Prod.mk.injEq, true_and]
  omega

/-- A string of characters that neither end it nor escape anything. -/
theorem string_of_chars {quote : Char} (hquote : quote ≠ '\\') {u : List Char}
    (hu : ∀ c ∈ u, c ≠ '\\' ∧ c ≠ quote ∧ c ≠ '\n') (z : List Char) :
    string quote (u ++ quote :: z) = (.quotedString (String.ofList u), u.length + 2) := by
  have hplain {c : Char} (hc : c ≠ '\\') (cs : List Char) : stringStep quote (c :: cs) =
      if c ≠ quote ∧ c ≠ '\n' then some (some c, 1) else none := by
    have hescape : escape? (c :: cs) = none := escape?_eq_none (by simpa using hc)
    rw [stringStep.eq_2 _ _ fun ds heq => hc (List.cons.inj heq).1]
    unfold escapeOr
    rw [hescape]
    by_cases h : c ≠ quote ∧ c ≠ '\n' <;> simp [h]
  have hpieces : segment (stringStep quote) (u ++ quote :: z) = u.map fun c => ⟨some c, [c]⟩ := by
    induction u with
    | nil => exact segment_of_none _ (by rw [List.nil_append, hplain hquote, if_neg (by simp)])
    | cons c u ih =>
      have hc := hu c List.mem_cons_self
      have hread : stringStep quote (c :: (u ++ quote :: z)) = some (some c, 1) := by
        rw [hplain hc.1, if_pos hc.2]
      rw [List.cons_append, segment_of_step _ (List.cons_ne_nil c _) hread Nat.one_pos]
      simpa using ih fun d hd => hu d (List.mem_cons_of_mem c hd)
  have hvalues : Piece.values (u.map fun c => (⟨some c, [c]⟩ : Piece Char (Option Char))) =
      u.map some := by
    simp [Piece.values, Function.comp_def]
  have hcovered : Piece.covered (u.map fun c => (⟨some c, [c]⟩ : Piece Char (Option Char))) = u := by
    simp [Piece.covered, List.flatMap_map]
  simp only [string, hpieces, hvalues, Piece.width, hcovered, List.drop_left, if_true]
  simp [Nat.add_comm]

end Scan

namespace Token

/-- The tokens are read back in front of every text. -/
def Firm (ts : List Token) : Prop := ∀ after, Spelled ts after

theorem Spelled.alike {ts : List Token} {x y : List Char} (h : Spelled ts x)
    (halike : Scan.Alike x y) : Spelled ts y := by
  induction ts with
  | nil => trivial
  | cons t ts ih =>
    refine ⟨?_, ih h.2⟩
    have ht := h.1
    rw [← List.append_assoc] at ht ⊢
    exact Scan.token_alike halike ht (by rw [List.length_append]; omega)

theorem text_ne_nil {t : Token} {x : List Char}
    (h : Scan.token (t.text ++ x) = some (t.kind, t.text.length)) : t.text ≠ [] := by
  intro hnil
  have hpos := (Scan.token_width h).1
  rw [hnil] at hpos
  exact absurd hpos (Nat.lt_irrefl 0)

theorem source_eq_nil {ts : List Token} {x : List Char} (h : Spelled ts x) (hnil : source ts = []) :
    ts = [] := by
  cases ts with
  | nil => rfl
  | cons t ts => exact absurd (List.append_eq_nil_iff.1 hnil).1 (text_ne_nil h.1)

/-- Two spelled lists with the same characters are cut at the same places, whatever follows. -/
theorem Spelled.agree {ts us : List Token} {x y : List Char} (h : Spelled ts x) (h' : Spelled us y)
    (hsource : source us = source ts) (hx : x ≠ []) (hy : y ≠ []) : Spelled ts y := by
  induction ts generalizing us with
  | nil => trivial
  | cons t ts ih =>
    cases us with
    | nil => exact absurd (source_eq_nil h hsource.symm) (List.cons_ne_nil t ts)
    | cons u us =>
      have ht := h.1
      have hu := h'.1
      rw [← List.append_assoc, ← source_cons] at ht hu
      rw [hsource] at hu
      have hlength : u.text.length ≤ (source (t :: ts)).length := by
        rw [← hsource, source_cons, List.length_append]
        omega
      obtain ⟨hkind, hwidth⟩ := Scan.token_agree hx hy ht
        (by rw [source_cons, List.length_append]; omega) hu hlength
      have htext : u.text = t.text ∧ source us = source ts :=
        List.append_inj hsource hwidth
      refine ⟨?_, ih h.2 h'.2 htext.2⟩
      rw [← List.append_assoc, ← source_cons, hu, hkind, hwidth]

theorem spelled_sign {t : Token} {c : Char} (htext : t.text = [c]) (hc : t.kind.sign? = some c) :
    Firm [t] := by
  intro after
  refine ⟨?_, trivial⟩
  rw [htext]
  exact Scan.token_of_punctuation (Scan.punctuation?_eq_some_iff.2 hc) _

theorem alike_of_sign? {k : TokenKind} {c : Char} (h : k.sign? = some c) (hc : c ≠ '(')
    (x y : List Char) : Scan.Alike (c :: x) (c :: y) := by
  rw [← Scan.punctuation?_eq_some_iff] at h
  refine ⟨c, x, y, by simp [Scan.isStop, h, hc], ?_, rfl, rfl⟩
  rintro rfl
  exact absurd h.symm (Option.some_ne_none k)

/-- Tokens up to a closing sign are read back in front of every text. -/
theorem Spelled.firm (ts : List Token) {t : Token} {c : Char} {x : List Char}
    (h : Spelled (ts ++ [t]) x) (ht : t.kind.sign? = some c) (hc : c ≠ '(') : Firm (ts ++ [t]) := by
  obtain ⟨hts, hsign⟩ := spelled_append.1 h
  have htext := text_of_sign (hsign.written t List.mem_cons_self) ht
  intro after
  refine spelled_append.2 ⟨hts.alike ?_, ?_⟩
  · rw [source_cons, htext]
    exact alike_of_sign? ht hc x after
  · exact spelled_sign htext ht after

/-- Whitespace in front of the same tokens is read back if no more blanks follow. -/
theorem Spelled.whitespace {t : Token} {ts : List Token} {x y : List Char} (h : Spelled (t :: ts) x)
    (hkind : t.kind = .whitespace) (hts : Spelled ts y) (hy : ∀ c ∈ y.head?, isBlank c = false) :
    Spelled (t :: ts) y := by
  refine ⟨?_, hts⟩
  have ht := h.1
  rw [hkind, Scan.token_whitespace_iff (text_ne_nil h.1)] at ht ⊢
  refine ⟨ht.1, ?_⟩
  cases ts with
  | nil => exact hy
  | cons u us =>
    obtain ⟨c, cs, hcs⟩ := List.exists_cons_of_ne_nil (text_ne_nil h.2.1)
    have hhead := ht.2
    simp only [source_cons, hcs, List.cons_append, List.head?_cons] at hhead ⊢
    exact hhead

/-- Blanks stay blanks in front of any text that is not blank. -/
theorem Spelled.blanks {ts : List Token} {x y : List Char} (h : Spelled ts x) (hts : AllBlank ts)
    (hy : ∀ c ∈ y.head?, isBlank c = false) : Spelled ts y := by
  induction ts with
  | nil => trivial
  | cons t ts ih =>
    have hrest : Spelled ts y := ih h.2 fun u hu => hts u (List.mem_cons_of_mem t hu)
    exact h.whitespace (kind_of_isWhitespace (hts t List.mem_cons_self)) hrest hy

/-- Trivia that something follows stay trivia in front of any other text that is not blank. -/
theorem Spelled.trivia {ts : List Token} {x y : List Char} (h : Spelled ts x) (hts : AllTrivia ts)
    (hx : x ≠ []) (hy : ∀ c ∈ y.head?, isBlank c = false) : Spelled ts y := by
  induction ts with
  | nil => trivial
  | cons t ts ih =>
    have hrest : Spelled ts y := ih h.2 fun u hu => hts u (List.mem_cons_of_mem t hu)
    have htrivia := hts t List.mem_cons_self
    unfold isTrivia TokenKind.isTrivia at htrivia
    split at htrivia
    · next hkind => exact h.whitespace hkind hrest hy
    · next content hkind =>
      refine ⟨?_, hrest⟩
      have ht := h.1
      rw [hkind] at ht ⊢
      exact Scan.token_comment_of_ne_nil (by simp [hx]) ht _
    · exact absurd htrivia nofun

theorem head_of_not_whitespace {t : Token} {ts : List Token} {x : List Char}
    (h : Spelled (t :: ts) x) (ht : t.isWhitespace = false) :
    ∀ c ∈ (source (t :: ts) ++ x).head?, isBlank c = false := by
  obtain ⟨c, cs, hcs⟩ := List.exists_cons_of_ne_nil (text_ne_nil h.1)
  have hread := h.1
  rw [hcs, List.cons_append] at hread
  intro d hd
  rw [source_cons, hcs] at hd
  obtain rfl : c = d := by simpa using hd
  by_contra hblank
  rw [Scan.token_of_isBlank (by simpa using hblank), Option.some.injEq, Prod.mk.injEq] at hread
  rw [isWhitespace, ← hread.1] at ht
  exact absurd ht nofun

/-- The token with its keyword or comment written anew. -/
def shown (t : Token) : Token :=
  match t.kind with
  | .atKeyword name => { t with text := '@' :: name.toList }
  | .comment content => { t with text := '/' :: '*' :: (content.toList ++ ['*', '/']) }
  | _ => t

@[simp] theorem shown_kind (t : Token) : t.shown.kind = t.kind := by
  unfold shown
  split <;> rfl

@[simp] theorem shown_location (t : Token) : t.shown.location = t.location := by
  unfold shown
  split <;> rfl

/-- A keyword with a plain name. -/
def Writable (t : Token) : Prop := ∀ name, t.kind = .atKeyword name → Scan.IsPlainName name

/-- A token written anew is read as it was. -/
theorem token_shown {t : Token} {x : List Char}
    (h : Scan.token (t.text ++ x) = some (t.kind, t.text.length)) (hplain : t.Writable) :
    Scan.token (t.shown.text ++ x) = some (t.kind, t.shown.text.length) := by
  unfold shown
  split
  · next name hkind =>
    rw [hkind] at h ⊢
    exact Scan.token_plain_keyword h (hplain name hkind)
  · next content hkind =>
    rw [hkind] at h ⊢
    obtain ⟨ds, -, rfl, -⟩ := (Scan.reading_of_token h).of_comment
    rw [String.toList_ofList]
    exact Scan.token_closed_comment ds x
  · exact h

theorem Spelled.shown {t : Token} {ts : List Token} {x : List Char} (h : Spelled (t :: ts) x)
    (hplain : t.Writable) : Spelled (t.shown :: ts) x := by
  refine ⟨?_, h.2⟩
  rw [shown_kind]
  exact token_shown h.1 hplain

theorem firm_comment {t : Token} {x : List Char} {content : String}
    (h : Scan.token (t.text ++ x) = some (t.kind, t.text.length)) (hkind : t.kind = .comment content) :
    Firm [t.shown] := by
  intro after
  refine ⟨?_, trivial⟩
  rw [hkind] at h
  obtain ⟨ds, -, rfl, -⟩ := (Scan.reading_of_token h).of_comment
  rw [shown_kind, hkind]
  unfold shown
  rw [hkind]
  simp only [String.toList_ofList, source_nil, List.nil_append]
  exact Scan.token_closed_comment ds after

theorem shown_plain {t : Token} (hplain : t.Writable) : t.shown.Plain := by
  constructor
  · intro name hkind hmem
    rw [shown_kind] at hkind
    unfold shown at hmem
    rw [hkind] at hmem
    rcases List.mem_cons.1 hmem with hat | hmem
    · exact absurd hat (by decide)
    · exact absurd ((hplain name hkind).2 _ hmem) (by decide)
  · intro content hkind
    rw [shown_kind] at hkind
    unfold shown
    rw [hkind]
    exact ⟨content.toList, rfl⟩

theorem shown_of_comment {t : Token} {x : List Char} {content : String} (hx : x ≠ [])
    (h : Scan.token (t.text ++ x) = some (t.kind, t.text.length)) (hkind : t.kind = .comment content) :
    t.shown = t := by
  rcases t with ⟨kind, place, text⟩
  obtain rfl : kind = .comment content := hkind
  exact congrArg (Token.mk (.comment content) place) (text_of_comment_of_ne_nil hx h rfl).symm

end Token
end GradientFallback
