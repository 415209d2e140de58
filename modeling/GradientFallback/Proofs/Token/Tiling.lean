import GradientFallback.Token.Lexer

/-! # Tokens tile their text

Every character of a text stands in exactly one token.  A token list is *spelled* in front of a text
if scanning reads the tokens back one after the other; reading a spelled text gives its tokens again,
at the places where they stand.
-/
namespace GradientFallback

section Segment

variable {ι α : Type}

@[simp] theorem Piece.covered_cons (p : Piece ι α) (ps : List (Piece ι α)) :
    covered (p :: ps) = p.text ++ covered ps := rfl

@[simp] theorem Piece.width_nil : width ([] : List (Piece ι α)) = 0 := rfl

@[simp] theorem Piece.width_cons (p : Piece ι α) (ps : List (Piece ι α)) :
    width (p :: ps) = p.text.length + width ps := List.length_append

variable (step : Step ι α)

theorem segment_of_step {xs : List ι} {a : α} {n : Nat} (hx : xs ≠ []) (h : step xs = some (a, n))
    (hn : 0 < n) : segment step xs = ⟨a, xs.take n⟩ :: segment step (xs.drop n) := by
  obtain ⟨x, xs, rfl⟩ := List.exists_cons_of_ne_nil hx
  obtain ⟨m, rfl⟩ := Nat.exists_eq_add_of_lt hn
  rw [segment_cons, h]
  simp

theorem segment_of_none {xs : List ι} (h : step xs = none) : segment step xs = [] := by
  cases xs with
  | nil => rfl
  | cons x xs => rw [segment_cons, h]

theorem segment_of_zero {xs : List ι} {a : α} (h : step xs = some (a, 0)) :
    segment step xs = [] := by
  cases xs with
  | nil => rfl
  | cons x xs => rw [segment_cons, h]

/-- Reading ends at once, or a first piece is read and reading goes on behind it. -/
theorem segment_cases (xs : List ι) :
    segment step xs = [] ∨ ∃ a n, xs ≠ [] ∧ 0 < n ∧ step xs = some (a, n) ∧
      segment step xs = ⟨a, xs.take n⟩ :: segment step (xs.drop n) := by
  by_cases hx : xs = []
  · exact .inl (hx ▸ rfl)
  rcases h : step xs with _ | ⟨a, _ | n⟩
  · exact .inl (segment_of_none step h)
  · exact .inl (segment_of_zero step h)
  · exact .inr ⟨a, n + 1, hx, n.succ_pos, rfl, segment_of_step step hx h n.succ_pos⟩

/-- What holds where reading ends at once, and in front of a piece if it holds behind it, holds of
every list. -/
theorem segment_induct {P : List ι → Prop} (ends : ∀ xs, segment step xs = [] → P xs)
    (piece : ∀ xs a n, xs ≠ [] → 0 < n → step xs = some (a, n) →
      segment step xs = ⟨a, xs.take n⟩ :: segment step (xs.drop n) → P (xs.drop n) → P xs)
    (xs : List ι) : P xs := by
  induction hl : xs.length using Nat.strongRecOn generalizing xs with
  | ind l ih =>
    rcases segment_cases step xs with h | ⟨a, n, hx, hn, hread, h⟩
    · exact ends xs h
    · have hpos := List.length_pos_iff.2 hx
      exact piece xs a n hx hn hread h (ih _ (by rw [List.length_drop]; omega) _ rfl)

theorem drop_length_take (n : Nat) (xs : List ι) : xs.drop (xs.take n).length = xs.drop n :=
  calc xs.drop (xs.take n).length
      = (xs.take n ++ xs.drop n).drop (xs.take n).length := by rw [List.take_append_drop]
    _ = xs.drop n := List.drop_left

/-- The pieces cover the front of the list, and the rest is as it was. -/
theorem covered_append_drop (xs : List ι) :
    Piece.covered (segment step xs) ++ xs.drop (Piece.width (segment step xs)) = xs := by
  induction xs using segment_induct step with
  | ends xs h => rw [h, Piece.width_nil]; rfl
  | piece xs a n _ _ _ h ih =>
    rw [h, Piece.covered_cons, Piece.width_cons, ← List.drop_drop, drop_length_take,
      List.append_assoc, ih, List.take_append_drop]

/-- Behind the pieces reading ends at once. -/
theorem segment_drop_width (xs : List ι) :
    segment step (xs.drop (Piece.width (segment step xs))) = [] := by
  induction xs using segment_induct step with
  | ends xs h => rwa [h]
  | piece xs a n _ _ _ h ih =>
    rw [h, Piece.width_cons, ← List.drop_drop, drop_length_take]
    exact ih

theorem width_segment_le (xs : List ι) : Piece.width (segment step xs) ≤ xs.length := by
  have h := congrArg List.length (covered_append_drop step xs)
  rw [List.length_append] at h
  exact Nat.le_of_add_right_le (Nat.le_of_eq h)

theorem width_segment_pos {xs : List ι} {a : α} {n : Nat} (hx : xs ≠ []) (h : step xs = some (a, n))
    (hn : 0 < n) : 0 < Piece.width (segment step xs) := by
  rw [segment_of_step step hx h hn, Piece.width_cons, List.length_take]
  have := List.length_pos_iff.2 hx
  omega

end Segment


namespace Scan

/-! ## Widths -/

theorem hexEscape_width (cs : List Char) (h : cs ≠ []) :
    0 < (hexEscape cs).2 ∧ (hexEscape cs).2 ≤ cs.length + 1 := by
  have hdigits : ((cs.take 6).takeWhile isHexDigit).length ≤ (cs.take 6).length :=
    (List.takeWhile_prefix _).length_le
  have hblank (ds : List Char) : ((ds.take 1).takeWhile isBlank).length ≤ (ds.take 1).length :=
    (List.takeWhile_prefix _).length_le
  have hb := hblank (cs.drop ((cs.take 6).takeWhile isHexDigit).length)
  have hpos := List.length_pos_iff.2 h
  simp only [List.length_take, List.length_drop] at hdigits hb
  simp only [hexEscape]
  omega

theorem escape?_width {cs : List Char} {c : Char} {n : Nat} (h : escape? cs = some (c, n)) :
    0 < n ∧ n ≤ cs.length := by
  unfold escape? at h
  split at h
  · next d ds =>
    split at h
    · exact absurd h nofun
    split at h
    · have hw := hexEscape_width (d :: ds) nofun
      rw [Option.some.injEq] at h
      rw [h] at hw
      exact hw
    · cases h
      simp
  · exact absurd h nofun

theorem escapeOr_width {p : Char → Bool} {cs : List Char} {c : Char} {n : Nat}
    (h : escapeOr p cs = some (c, n)) : 0 < n ∧ n ≤ cs.length := by
  unfold escapeOr at h
  split at h
  · next hpiece =>
    cases h
    exact escape?_width hpiece
  · split at h
    · split at h
      · cases h
        simp
      · exact absurd h nofun
    · exact absurd h nofun

theorem name_width_le (cs : List Char) : (name cs).2 ≤ cs.length := width_segment_le _ cs

theorem name_width_pos_of_step {cs : List Char} (hs : (escapeOr isNameChar cs).isSome) :
    0 < (name cs).2 := by
  obtain ⟨⟨c, n⟩, h⟩ := Option.isSome_iff_exists.1 hs
  have hn := escapeOr_width h
  exact width_segment_pos _ (by rintro rfl; simp at hn; omega) h hn.1

theorem escapeOr_isSome {p : Char → Bool} {cs : List Char}
    (h : (escape? cs).isSome ∨ cs.head?.any p) : (escapeOr p cs).isSome := by
  unfold escapeOr
  split
  · rfl
  · next hnone =>
    rw [hnone] at h
    cases cs with
    | nil => simp at h
    | cons c cs => simpa using h

theorem startsPlainName_iff (cs : List Char) :
    startsPlainName cs = true ↔ (escape? cs).isSome ∨ cs.head?.any isNameStart := by
  simp [startsPlainName]

theorem name_width_pos {cs : List Char} (h : startsIdent cs = true) : 0 < (name cs).2 := by
  have hplain {ds : List Char} (hd : startsPlainName ds = true) : 0 < (name ds).2 := by
    apply name_width_pos_of_step
    apply escapeOr_isSome
    refine ((startsPlainName_iff ds).1 hd).imp_right fun hany => ?_
    cases ds with
    | nil => simp at hany
    | cons d ds =>
      simp only [List.head?_cons, Option.any_some] at hany ⊢
      simp [isNameChar, hany]
  unfold startsIdent at h
  split at h
  · exact name_width_pos_of_step (escapeOr_isSome (.inr rfl))
  · exact hplain h

theorem signPart_isPrefix (cs : List Char) : signPart cs <+: cs := by
  cases cs with
  | nil => exact List.nil_prefix
  | cons c cs =>
    by_cases hc : (c == '+' || c == '-') = true
    · exact ⟨cs, by simp [signPart, hc]⟩
    · exact ⟨c :: cs, by simp [signPart, hc]⟩

theorem digitsPart_isPrefix (cs : List Char) : digitsPart cs <+: cs := List.takeWhile_prefix _

theorem fractionPart_isPrefix (cs : List Char) : fractionPart cs <+: cs := by
  unfold fractionPart
  split
  · split
    · exact List.nil_prefix
    · exact List.cons_prefix_cons.2 ⟨rfl, digitsPart_isPrefix _⟩
  · exact List.nil_prefix

theorem andThen_isPrefix {p q : List Char → List Char} (hp : ∀ cs, p cs <+: cs)
    (hq : ∀ cs, q cs <+: cs) (cs : List Char) : andThen p q cs <+: cs := by
  obtain ⟨ds, hds⟩ := hp cs
  obtain ⟨es, hes⟩ := hq (cs.drop (p cs).length)
  refine ⟨es, ?_⟩
  have hdrop : cs.drop (p cs).length = ds := by
    have := congrArg (List.drop (p cs).length) hds
    simpa using this.symm
  rw [andThen, List.append_assoc, hes, hdrop, hds]

theorem exponentPart_isPrefix (cs : List Char) : exponentPart cs <+: cs := by
  cases cs with
  | nil => exact List.nil_prefix
  | cons e cs =>
    simp only [exponentPart]
    split
    · exact List.cons_prefix_cons.2 ⟨rfl, andThen_isPrefix signPart_isPrefix digitsPart_isPrefix cs⟩
    · exact List.nil_prefix

theorem numeral_isPrefix (cs : List Char) : numeral cs <+: cs :=
  andThen_isPrefix signPart_isPrefix (andThen_isPrefix digitsPart_isPrefix
    (andThen_isPrefix fractionPart_isPrefix exponentPart_isPrefix)) cs

theorem numeral_ne_nil {cs : List Char} (h : startsNumber cs = true) : numeral cs ≠ [] := by
  intro hnil
  have hunsigned := (List.append_eq_nil_iff.1 hnil).2
  have hdigits := (List.append_eq_nil_iff.1 hunsigned).1
  have hfraction := (List.append_eq_nil_iff.1 (List.append_eq_nil_iff.1 hunsigned).2).1
  rw [hdigits] at hfraction
  simp [startsNumber, startsUnsigned, hdigits] at h hfraction
  exact h hfraction

theorem numeric_width {cs : List Char} (h : startsNumber cs = true) :
    0 < (numeric cs).2 ∧ (numeric cs).2 ≤ cs.length := by
  have hpos := List.length_pos_iff.2 (numeral_ne_nil h)
  have hle := (numeral_isPrefix cs).length_le
  have hunit := name_width_le (cs.drop (numeral cs).length)
  rw [List.length_drop] at hunit
  simp only [numeric]
  split
  · simp only
    omega
  split
  · next hpercent =>
    have : cs.drop (numeral cs).length ≠ [] := by
      intro hnil
      simp [hnil] at hpercent
    have := List.length_pos_iff.2 this
    rw [List.length_drop] at this
    simp only
    omega
  · simp only
    omega

theorem string_width (quote : Char) (cs : List Char) :
    0 < (string quote cs).2 ∧ (string quote cs).2 ≤ cs.length + 1 := by
  have hle := width_segment_le (stringStep quote) cs
  simp only [string]
  split
  · simp only
    omega
  · next c ds hdrop =>
    have hlen := congrArg List.length hdrop
    rw [List.length_drop, List.length_cons] at hlen
    split <;> simp only <;> omega

theorem brokenUrlWidth_le (cs : List Char) : brokenUrlWidth cs ≤ cs.length := by
  have hle := width_segment_le (escapeOr fun c => c != ')') cs
  simp only [brokenUrlWidth, List.length_take, List.length_drop]
  omega

theorem runLength_le (p : Char → Bool) (cs : List Char) : runLength p cs ≤ cs.length :=
  (List.takeWhile_prefix _).length_le

theorem url_width_le (cs : List Char) : (url cs).2 ≤ cs.length := by
  have hindent := runLength_le isBlank cs
  have hwidth := width_segment_le (escapeOr isUrlChar) (cs.drop (runLength isBlank cs))
  rw [List.length_drop] at hwidth
  have hgap := runLength_le isBlank (cs.drop (runLength isBlank cs +
    Piece.width (segment (escapeOr isUrlChar) (cs.drop (runLength isBlank cs)))))
  rw [List.length_drop] at hgap
  simp only [url]
  split
  · simp only
    omega
  · next c ds hdrop =>
    have hlen := congrArg List.length hdrop
    rw [List.length_drop, List.length_cons] at hlen
    have hbroken := brokenUrlWidth_le (c :: ds)
    rw [List.length_cons] at hbroken
    split <;> simp only <;> omega

theorem commentContent_isPrefix (cs : List Char) : commentContent cs <+: cs := by
  fun_induction commentContent cs with
  | case1 => exact List.nil_prefix
  | case2 c cs _ ih => exact List.cons_prefix_cons.2 ⟨rfl, ih⟩
  | case3 => exact List.nil_prefix

theorem comment_width (cs : List Char) : 0 < (comment cs).2 ∧ (comment cs).2 ≤ cs.length + 2 := by
  have hle := (commentContent_isPrefix cs).length_le
  simp only [comment, List.length_take, List.length_drop]
  omega

theorem identLike_width {cs : List Char} (h : startsIdent cs = true) :
    0 < (identLike cs).2 ∧ (identLike cs).2 ≤ cs.length := by
  have hpos := name_width_pos h
  have hle := name_width_le cs
  simp only [identLike]
  split
  · next after hdrop =>
    have hlen := congrArg List.length hdrop
    rw [List.length_drop, List.length_cons] at hlen
    have hurl := url_width_le after
    split <;> simp only <;> omega
  · exact ⟨hpos, hle⟩

theorem hash_width (cs : List Char) : 0 < (hash cs).2 ∧ (hash cs).2 ≤ cs.length + 1 := by
  have hle := name_width_le cs
  simp only [hash]
  split
  · simp
  · split <;> simp only <;> omega

theorem atSign_width (cs : List Char) : 0 < (atSign cs).2 ∧ (atSign cs).2 ≤ cs.length + 1 := by
  have hle := name_width_le cs
  simp only [atSign]
  split <;> simp only <;> omega

/-- What `other` reads, one case for each reader, with what makes it the one that is asked. -/
inductive OtherReading (c : Char) (cs : List Char) : TokenKind × Nat → Prop
  | blanks (blank : isBlank c = true) : OtherReading c cs (.whitespace, 1 + runLength isBlank cs)
  | string (quote : c = '"' ∨ c = '\'') : OtherReading c cs (string c cs)
  | hash (sign : c = '#') : OtherReading c cs (hash cs)
  | atSign (sign : c = '@') : OtherReading c cs (atSign cs)
  | numeric (starts : startsNumber (c :: cs) = true) : OtherReading c cs (numeric (c :: cs))
  | commentClose (sign : c = '-') (more : cs.take 2 = ['-', '>']) : OtherReading c cs (.commentClose, 3)
  | commentOpen (sign : c = '<') (more : cs.take 3 = ['!', '-', '-']) :
      OtherReading c cs (.commentOpen, 4)
  | identLike (starts : startsIdent (c :: cs) = true) : OtherReading c cs (identLike (c :: cs))
  | delim (unquoted : ¬(c = '"' ∨ c = '\'')) (starts : ¬startsIdent (c :: cs) = true) :
      OtherReading c cs (.delim c, 1)

theorem other_reading (c : Char) (cs : List Char) : OtherReading c cs (other c cs) := by
  unfold other
  split
  · next h => exact .blanks h
  split
  · next h => exact .string h
  split
  · next h => exact .hash h
  split
  · next h => exact .atSign h
  split
  · next h => exact .numeric h
  split
  · next h => exact .commentClose h.1 h.2
  split
  · next h => exact .commentOpen h.1 h.2
  split
  · next h => exact .identLike h
  · next hquote _ _ _ _ _ hident => exact .delim hquote hident

theorem other_width (c : Char) (cs : List Char) :
    0 < (other c cs).2 ∧ (other c cs).2 ≤ cs.length + 1 := by
  have hread := other_reading c cs
  have htake (n : Nat) (ds : List Char) (h : cs.take n = ds) : ds.length ≤ cs.length := by
    rw [← h, List.length_take]
    omega
  generalize other c cs = r at hread ⊢
  cases hread with
  | blanks blank =>
    have hrun := runLength_le isBlank cs
    dsimp only
    omega
  | string quote => exact string_width c cs
  | hash sign => exact hash_width cs
  | atSign sign => exact atSign_width cs
  | numeric starts => exact numeric_width starts
  | commentClose sign more => exact ⟨by decide, Nat.succ_le_succ (htake 2 _ more)⟩
  | commentOpen sign more => exact ⟨by decide, Nat.succ_le_succ (htake 3 _ more)⟩
  | identLike starts => exact identLike_width starts
  | delim unquoted starts => exact ⟨Nat.one_pos, Nat.le_add_left 1 _⟩

/-- What reads a token. -/
inductive TokenReading : List Char → TokenKind → Nat → Prop
  | comment (cs : List Char) : TokenReading ('/' :: '*' :: cs) (comment cs).1 (comment cs).2
  | punctuation {c : Char} {k : TokenKind} (cs : List Char) (sign : punctuation? c = some k) :
      TokenReading (c :: cs) k 1
  | other {c : Char} (cs : List Char) (sign : punctuation? c = none) :
      TokenReading (c :: cs) (other c cs).1 (other c cs).2

theorem token_reading {cs : List Char} {k : TokenKind} {n : Nat} (h : token cs = some (k, n)) :
    TokenReading cs k n := by
  unfold token at h
  split at h
  · exact absurd h nofun
  · next ds =>
    obtain ⟨rfl, rfl⟩ := Prod.mk.inj (Option.some.inj h)
    exact .comment ds
  · next c ds _ =>
    split at h
    · next hsign =>
      cases h
      exact .punctuation ds hsign
    · next hsign =>
      obtain ⟨rfl, rfl⟩ := Prod.mk.inj (Option.some.inj h)
      exact .other ds hsign

/-- A token takes at least one character, and no more than there are. -/
theorem token_width {cs : List Char} {k : TokenKind} {n : Nat} (h : token cs = some (k, n)) :
    0 < n ∧ n ≤ cs.length := by
  cases token_reading h with
  | comment cs => exact comment_width cs
  | punctuation cs sign => exact ⟨Nat.one_pos, Nat.le_add_left 1 _⟩
  | other cs sign => exact other_width _ cs

theorem token_isSome {cs : List Char} (h : cs ≠ []) : ∃ k n, token cs = some (k, n) := by
  unfold token
  split
  · exact absurd rfl h
  · exact ⟨_, _, rfl⟩
  · split
    · exact ⟨_, _, rfl⟩
    · exact ⟨_, _, rfl⟩

end Scan

namespace Token

@[simp] theorem source_nil : source [] = [] := rfl

@[simp] theorem source_cons (t : Token) (ts : List Token) : source (t :: ts) = t.text ++ source ts :=
  rfl

@[simp] theorem source_append (ts us : List Token) : source (ts ++ us) = source ts ++ source us :=
  List.flatMap_append

@[simp] theorem lex_nil (start : Location) : lex start [] = [] := rfl

theorem lex_of_token (start : Location) {cs : List Char} {k : TokenKind} {n : Nat}
    (h : Scan.token cs = some (k, n)) :
    lex start cs = ⟨k, start, cs.take n⟩ :: lex (start.advance (cs.take n)) (cs.drop n) := by
  have hn := Scan.token_width h
  have hcs : cs ≠ [] := by
    rintro rfl
    exact absurd h nofun
  rw [lex, segment_of_step _ hcs h hn.1]
  rfl

/-- What holds of the empty text, and of a text if it holds behind its first token, holds of every
text. -/
theorem lex_induct {P : List Char → Prop} (nil : P [])
    (token : ∀ cs k n, Scan.token cs = some (k, n) → n ≤ cs.length → P (cs.drop n) → P cs)
    (cs : List Char) : P cs := by
  induction hl : cs.length using Nat.strongRecOn generalizing cs with
  | ind l ih =>
    by_cases hcs : cs = []
    · exact hcs ▸ nil
    · obtain ⟨k, n, h⟩ := Scan.token_isSome hcs
      have hn := Scan.token_width h
      exact token cs k n h hn.2 (ih _ (by rw [List.length_drop]; omega) _ rfl)

/-- The tokens of a text, one after the other, give the text back. -/
theorem source_lex (start : Location) (cs : List Char) : source (lex start cs) = cs := by
  induction cs using lex_induct generalizing start with
  | nil => rfl
  | token cs k n h _ ih =>
    rw [lex_of_token start h, source_cons, ih]
    exact List.take_append_drop n cs

/-! ## Spelling -/

/-- In front of `after`, the tokens are read back from their texts one after the other. -/
def Spelled : List Token → List Char → Prop
  | [], _ => True
  | t :: ts, after =>
    Scan.token (t.text ++ (source ts ++ after)) = some (t.kind, t.text.length) ∧ Spelled ts after

@[simp] theorem spelled_nil (after : List Char) : Spelled [] after := trivial

theorem spelled_cons {t : Token} {ts : List Token} {after : List Char} :
    Spelled (t :: ts) after ↔
      Scan.token (t.text ++ (source ts ++ after)) = some (t.kind, t.text.length) ∧
        Spelled ts after := Iff.rfl

theorem spelled_append {ts us : List Token} {after : List Char} :
    Spelled (ts ++ us) after ↔ Spelled ts (source us ++ after) ∧ Spelled us after := by
  induction ts with
  | nil => simp
  | cons t ts ih => simp only [List.cons_append, spelled_cons, ih, source_append, List.append_assoc,
      and_assoc]

theorem spelled_lex (start : Location) (cs : List Char) : Spelled (lex start cs) [] := by
  induction cs using lex_induct generalizing start with
  | nil => trivial
  | token cs k n h hn ih =>
    rw [lex_of_token start h, spelled_cons, source_lex, List.append_nil, List.take_append_drop,
      List.length_take, Nat.min_eq_left hn]
    exact ⟨h, ih _⟩

/-- The tokens at the places where they stand one after the other from `start` on. -/
def settle : Location → List Token → List Token
  | _, [] => []
  | start, t :: ts => { t with location := start } :: settle (start.advance t.text) ts

/-- Reading a spelled text gives its tokens, each at its place. -/
theorem lex_source_append (start : Location) {ts : List Token} {after : List Char}
    (h : Spelled ts after) :
    lex start (source ts ++ after) =
      settle start ts ++ lex (start.advance (source ts)) after := by
  induction ts generalizing start with
  | nil => rfl
  | cons t ts ih =>
    have ht := (spelled_cons.1 h).1
    rw [source_cons, List.append_assoc, lex_of_token start ht, List.take_left, List.drop_left,
      ih _ (spelled_cons.1 h).2, Location.advance_append]
    rfl

end Token
end GradientFallback
