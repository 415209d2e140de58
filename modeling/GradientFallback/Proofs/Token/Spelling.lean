import GradientFallback.Proofs.Token.Tiling
import Mathlib.Data.List.TakeWhile

/-! # How tokens of a kind are written

The kind of a token says how it is written: a sign of punctuation is one character, whitespace is a
run of blanks, and a keyword or a comment shows its value between fixed signs unless there is an
escape in it or its end is missing.
-/
namespace GradientFallback

namespace TokenKind

/-- The sign of a kind that is always written with that one character. -/
def sign? : TokenKind → Option Char
  | leftParen => some '('
  | rightParen => some ')'
  | leftBracket => some '['
  | rightBracket => some ']'
  | leftBrace => some '\x7b'
  | rightBrace => some '\x7d'
  | comma => some ','
  | colon => some ':'
  | semicolon => some ';'
  | _ => none

/-- The kinds that are neither a sign of punctuation nor trivia nor a keyword, nor the end. -/
def isSolid : TokenKind → Bool
  | endOfText => false
  | atKeyword _ => false
  | whitespace => false
  | comment _ => false
  | k => k.sign?.isNone

end TokenKind

namespace Scan

/-! ## The kinds that each reader gives -/

section Kinds

variable {P : TokenKind → Prop}

theorem string_kind (quoted : ∀ s, P (.quotedString s)) (broken : ∀ s, P (.badString s))
    (quote : Char) (cs : List Char) : P (string quote cs).1 := by
  simp only [string]
  split
  · exact quoted _
  · split
    · exact quoted _
    · exact broken _

theorem hash_kind (delim : P (.delim '#')) (ident : ∀ s, P (.idHash s)) (plain : ∀ s, P (.hash s))
    (cs : List Char) : P (hash cs).1 := by
  simp only [hash]
  split
  · exact delim
  · split
    · exact ident _
    · exact plain _

theorem atSign_kind (delim : P (.delim '@')) (keyword : ∀ s, P (.atKeyword s)) (cs : List Char) :
    P (atSign cs).1 := by
  simp only [atSign]
  split
  · exact keyword _
  · exact delim

theorem numeric_kind (dimension : ∀ v unit, P (.dimension v unit)) (percentage : ∀ v, P (.percentage v))
    (number : ∀ v, P (.number v)) (cs : List Char) : P (numeric cs).1 := by
  simp only [numeric]
  split
  · exact dimension _ _
  · split
    · exact percentage _
    · exact number _

theorem url_kind (whole : ∀ s, P (.url s)) (broken : ∀ s, P (.badUrl s)) (cs : List Char) :
    P (url cs).1 := by
  simp only [url]
  split
  · exact whole _
  · split
    · exact whole _
    · exact broken _

theorem identLike_kind (ident : ∀ s, P (.ident s)) (function : ∀ s, P (.function s))
    (whole : ∀ s, P (.url s)) (broken : ∀ s, P (.badUrl s)) (cs : List Char) :
    P (identLike cs).1 := by
  simp only [identLike]
  split
  · split
    · exact url_kind whole broken _
    · exact function _
  · exact ident _

end Kinds

theorem other_cases (c : Char) (cs : List Char) :
    (isBlank c = true ∧ other c cs = (.whitespace, 1 + runLength isBlank cs)) ∨
      (c = '@' ∧ startsIdent cs = true ∧ other c cs = (.atKeyword (name cs).1, 1 + (name cs).2)) ∨
      (other c cs).1.isSolid = true := by
  have hread := other_reading c cs
  generalize other c cs = r at hread ⊢
  cases hread with
  | blanks blank => exact .inl ⟨blank, rfl⟩
  | string quote =>
    exact .inr (.inr (string_kind (P := (·.isSolid = true)) (fun _ => rfl) (fun _ => rfl) c cs))
  | hash sign =>
    exact .inr (.inr (hash_kind (P := (·.isSolid = true)) rfl (fun _ => rfl) (fun _ => rfl) cs))
  | atSign sign =>
    by_cases hident : startsIdent cs = true
    · exact .inr (.inl ⟨sign, hident, by rw [atSign, if_pos hident]⟩)
    · exact .inr (.inr (by rw [atSign, if_neg hident]; rfl))
  | numeric starts =>
    exact .inr (.inr (numeric_kind (P := (·.isSolid = true)) (fun _ _ => rfl) (fun _ => rfl)
      (fun _ => rfl) _))
  | commentClose sign more => exact .inr (.inr rfl)
  | commentOpen sign more => exact .inr (.inr rfl)
  | identLike starts =>
    exact .inr (.inr (identLike_kind (P := (·.isSolid = true)) (fun _ => rfl) (fun _ => rfl)
      (fun _ => rfl) (fun _ => rfl) _))
  | delim unquoted starts => exact .inr (.inr rfl)

theorem token_comment (cs : List Char) : token ('/' :: '*' :: cs) = some (comment cs) := rfl

theorem token_cons {c : Char} {cs : List Char} (h : ¬(c = '/' ∧ cs.head? = some '*')) :
    token (c :: cs) =
      match punctuation? c with
      | some kind => some (kind, 1)
      | none => some (other c cs) := by
  refine token.eq_3 c cs ?_
  rintro ds rfl rfl
  exact h ⟨rfl, rfl⟩

theorem token_of_punctuation {c : Char} {k : TokenKind} (h : punctuation? c = some k)
    (cs : List Char) : token (c :: cs) = some (k, 1) := by
  have hc : ¬(c = '/' ∧ cs.head? = some '*') := by
    rintro ⟨rfl, -⟩
    exact absurd h nofun
  rw [token_cons hc, h]

/-- The ways in which a token can be read. -/
inductive Reading : List Char → TokenKind → Nat → Prop
  | punctuation {c : Char} {k : TokenKind} (cs : List Char) (sign : punctuation? c = some k) :
      Reading (c :: cs) k 1
  | comment (cs : List Char) :
      Reading ('/' :: '*' :: cs) (.comment (String.ofList (commentContent cs))) (comment cs).2
  | whitespace {c : Char} (cs : List Char) (blank : isBlank c = true) :
      Reading (c :: cs) .whitespace (1 + runLength isBlank cs)
  | atKeyword {cs : List Char} (ident : startsIdent cs = true) :
      Reading ('@' :: cs) (.atKeyword (name cs).1) (1 + (name cs).2)
  | solid {cs : List Char} {k : TokenKind} {n : Nat} (kind : k.isSolid = true) : Reading cs k n

theorem reading_of_token {cs : List Char} {k : TokenKind} {n : Nat} (h : token cs = some (k, n)) :
    Reading cs k n := by
  cases token_reading h with
  | comment cs => exact .comment cs
  | punctuation cs sign => exact .punctuation cs sign
  | @other c cs sign =>
    have hcases := other_cases c cs
    generalize other c cs = r at hcases
    rcases hcases with ⟨hblank, rfl⟩ | ⟨rfl, hident, rfl⟩ | hsolid
    · exact .whitespace cs hblank
    · exact .atKeyword hident
    · exact .solid hsolid

theorem punctuation?_eq_some_iff {c : Char} {k : TokenKind} :
    punctuation? c = some k ↔ k.sign? = some c := by
  constructor
  · intro h
    unfold punctuation? at h
    split at h <;> cases h <;> rfl
  · intro h
    cases k <;> simp_all [TokenKind.sign?] <;> (subst h; rfl)

theorem Reading.of_sign {cs : List Char} {k : TokenKind} {c : Char} {n : Nat} (h : Reading cs k n)
    (hk : k.sign? = some c) : ∃ ds, cs = c :: ds ∧ n = 1 := by
  cases h with
  | punctuation ds sign =>
    rw [punctuation?_eq_some_iff, hk, Option.some.injEq] at sign
    exact ⟨ds, by rw [sign], rfl⟩
  | comment => exact absurd hk nofun
  | whitespace => exact absurd hk nofun
  | atKeyword => exact absurd hk nofun
  | solid kind => cases k <;> simp_all [TokenKind.sign?, TokenKind.isSolid]

theorem Reading.of_atKeyword {cs : List Char} {value : String} {n : Nat}
    (h : Reading cs (.atKeyword value) n) :
    ∃ ds, cs = '@' :: ds ∧ startsIdent ds = true ∧ value = (name ds).1 ∧ n = 1 + (name ds).2 := by
  cases h with
  | punctuation ds sign => exact absurd (punctuation?_eq_some_iff.1 sign) nofun
  | atKeyword ident => exact ⟨_, rfl, ident, rfl, rfl⟩
  | solid kind => exact absurd kind nofun

theorem Reading.of_comment {cs : List Char} {content : String} {n : Nat}
    (h : Reading cs (.comment content) n) :
    ∃ ds, cs = '/' :: '*' :: ds ∧ content = String.ofList (commentContent ds) ∧
      n = (Scan.comment ds).2 := by
  cases h with
  | punctuation ds sign => exact absurd (punctuation?_eq_some_iff.1 sign) nofun
  | comment ds => exact ⟨ds, rfl, rfl, rfl⟩
  | solid kind => exact absurd kind nofun

theorem Reading.of_whitespace {cs : List Char} {n : Nat} (h : Reading cs .whitespace n) :
    ∃ c ds, cs = c :: ds ∧ isBlank c = true ∧ n = 1 + runLength isBlank ds := by
  cases h with
  | punctuation ds sign => exact absurd (punctuation?_eq_some_iff.1 sign) nofun
  | whitespace ds blank => exact ⟨_, ds, rfl, blank, rfl⟩
  | solid kind => exact absurd kind nofun

/-- The end of the text is never read as a token. -/
theorem Reading.ne_endOfText {cs : List Char} {k : TokenKind} {n : Nat} (h : Reading cs k n) :
    k ≠ .endOfText := by
  rintro rfl
  cases h with
  | punctuation ds sign => exact absurd (punctuation?_eq_some_iff.1 sign) nofun
  | solid kind => exact absurd kind nofun

/-! ## Names and comments without escapes -/

theorem escape?_eq_none {cs : List Char} (h : cs.head? ≠ some '\\') : escape? cs = none := by
  unfold escape?
  split
  · exact absurd rfl h
  · rfl

/-- A step without an escape takes one character as it is. -/
theorem escapeOr_eq_some {p : Char → Bool} {cs : List Char} {c : Char} {n : Nat}
    (h : escapeOr p cs = some (c, n)) (hc : cs.head? ≠ some '\\') :
    ∃ ds, cs = c :: ds ∧ p c = true ∧ n = 1 := by
  unfold escapeOr at h
  rw [escape?_eq_none hc] at h
  cases cs with
  | nil => exact absurd h nofun
  | cons d ds =>
    dsimp only at h
    split at h
    · next hd =>
      cases h
      exact ⟨ds, rfl, hd, rfl⟩
    · exact absurd h nofun

/-- Pieces that cover no backslash are single characters. -/
theorem values_of_no_escape (p : Char → Bool) {cs : List Char}
    (h : '\\' ∉ Piece.covered (segment (escapeOr p) cs)) :
    Piece.values (segment (escapeOr p) cs) = Piece.covered (segment (escapeOr p) cs) := by
  induction cs using segment_induct (escapeOr p) with
  | ends cs hseg =>
    rw [hseg]
    rfl
  | piece cs c n hcs hn hstep hseg ih =>
    rw [hseg, Piece.covered_cons, List.mem_append, not_or] at h
    have hhead : cs.head? ≠ some '\\' := by
      intro hslash
      obtain ⟨ds, rfl⟩ := List.head?_eq_some_iff.1 hslash
      obtain ⟨m, rfl⟩ := Nat.exists_eq_add_of_lt hn
      simp at h
    obtain ⟨ds, rfl, -, rfl⟩ := escapeOr_eq_some hstep hhead
    rw [hseg, Piece.covered_cons, ← ih h.2]
    rfl

theorem take_width_segment {ι α : Type} (step : Step ι α) (xs : List ι) :
    xs.take (Piece.width (segment step xs)) = Piece.covered (segment step xs) := by
  have h := congrArg (List.take (Piece.width (segment step xs))) (covered_append_drop step xs)
  rw [← h, Piece.width, List.take_left]

/-- A name without escapes is written with its characters. -/
theorem name_of_no_escape {cs : List Char} (h : '\\' ∉ cs.take (name cs).2) :
    (name cs).1.toList = cs.take (name cs).2 := by
  simp only [name, take_width_segment] at h ⊢
  rw [values_of_no_escape isNameChar h, String.toList_ofList]

theorem commentContent_cases (cs : List Char) :
    commentContent cs = cs ∨ ∃ ds, cs = commentContent cs ++ '*' :: '/' :: ds := by
  fun_induction commentContent cs with
  | case1 ds => exact .inr ⟨ds, rfl⟩
  | case2 c cs _ ih =>
    rcases ih with ih | ⟨ds, ih⟩
    · exact .inl (by rw [ih])
    · refine .inr ⟨ds, ?_⟩
      rw [List.cons_append, ← ih]
  | case3 => exact .inl rfl

theorem commentContent_length_le (cs ds : List Char) :
    (commentContent (cs ++ '*' :: '/' :: ds)).length ≤ cs.length := by
  induction cs with
  | nil => exact Nat.le_refl 0
  | cons c cs ih =>
    rw [List.cons_append]
    unfold commentContent
    split
    · exact Nat.zero_le _
    · next heq =>
      cases heq
      exact Nat.succ_le_succ ih
    · exact Nat.zero_le _

/-- What is read of a comment with a closing sign is all up to that sign. -/
theorem text_of_closed {u x ds es : List Char} (hds : u ++ x = '/' :: '*' :: ds)
    (hlength : u.length = (comment ds).2) (hes : ds = commentContent ds ++ '*' :: '/' :: es) :
    u = '/' :: '*' :: (commentContent ds ++ ['*', '/']) := by
  have hwidth : (comment ds).2 = ('/' :: '*' :: (commentContent ds ++ ['*', '/'])).length := by
    have hdrop := congrArg (List.drop (commentContent ds).length) hes
    rw [List.drop_left] at hdrop
    simp only [comment, hdrop, List.length_cons, List.length_append, List.take_succ_cons,
      List.take_zero, List.length_nil]
    omega
  have hfull : '/' :: '*' :: ds = '/' :: '*' :: (commentContent ds ++ ['*', '/']) ++ es := by
    rw [List.cons_append, List.cons_append, List.append_assoc]
    exact congrArg (fun cs => '/' :: '*' :: cs) hes
  have hfront := congrArg (List.take u.length) hds
  rw [List.take_left, hlength, hwidth, hfull, List.take_left] at hfront
  exact hfront

end Scan

/-- A keyword without escapes, and a comment with its closing sign; any other token. -/
structure Token.Plain (t : Token) : Prop where
  keyword : ∀ name, t.kind = .atKeyword name → '\\' ∉ t.text
  comment : ∀ content, t.kind = .comment content → ['*', '/'] <:+ t.text.drop 2

namespace Token

/-- The token is what is read in front of some text. -/
def Written (t : Token) : Prop :=
  ∃ after, Scan.token (t.text ++ after) = some (t.kind, t.text.length)

theorem Spelled.written {ts : List Token} {after : List Char} (h : Spelled ts after) :
    ∀ t ∈ ts, t.Written := by
  induction ts with
  | nil => exact nofun
  | cons t ts ih =>
    intro u hu
    rcases List.mem_cons.1 hu with rfl | hu
    · exact ⟨_, h.1⟩
    · exact ih h.2 u hu

theorem text_of_sign {t : Token} {c : Char} (h : t.Written) (hc : t.kind.sign? = some c) :
    t.text = [c] := by
  obtain ⟨after, hread⟩ := h
  obtain ⟨ds, hds, hlength⟩ := (Scan.reading_of_token hread).of_sign hc
  obtain ⟨d, htext⟩ := List.length_eq_one_iff.1 hlength
  rw [htext, List.singleton_append, List.cons.injEq] at hds
  rw [htext, hds.1]

theorem text_of_atKeyword {t : Token} {name : String} (h : t.Written)
    (hkind : t.kind = .atKeyword name) (hplain : '\\' ∉ t.text) :
    t.text = '@' :: name.toList := by
  obtain ⟨after, hread⟩ := h
  rw [hkind] at hread
  obtain ⟨ds, hds, -, rfl, hlength⟩ := (Scan.reading_of_token hread).of_atKeyword
  have htext : t.text = '@' :: ds.take (Scan.name ds).2 := by
    have hfront := congrArg (List.take t.text.length) hds
    rw [List.take_left, hlength, Nat.add_comm] at hfront
    exact hfront
  have hname : '\\' ∉ ds.take (Scan.name ds).2 := by
    intro hmem
    exact hplain (by rw [htext]; exact List.mem_cons_of_mem _ hmem)
  rw [htext, Scan.name_of_no_escape hname]

theorem text_of_comment {t : Token} {content : String} (h : t.Written)
    (hkind : t.kind = .comment content) (hclosed : ['*', '/'] <:+ t.text.drop 2) :
    t.text = '/' :: '*' :: (content.toList ++ ['*', '/']) := by
  obtain ⟨after, hread⟩ := h
  rw [hkind] at hread
  obtain ⟨ds, hds, rfl, hlength⟩ := (Scan.reading_of_token hread).of_comment
  rw [String.toList_ofList]
  rcases Scan.commentContent_cases ds with hall | ⟨es, hes⟩
  · have htext : t.text = '/' :: '*' :: ds := by
      have hfront := congrArg (List.take t.text.length) hds
      rw [List.take_left, hlength] at hfront
      rw [hfront]
      apply List.take_of_length_le
      simp only [Scan.comment, hall, List.length_cons]
      omega
    obtain ⟨cs, hcs⟩ := hclosed
    have hds : cs ++ ['*', '/'] = ds := by
      rw [hcs, htext]
      rfl
    have hle := Scan.commentContent_length_le cs []
    rw [hds, hall, ← hds, List.length_append, List.length_cons] at hle
    omega
  · exact Scan.text_of_closed hds hlength hes

/-- A comment that something follows has its closing sign. -/
theorem text_of_comment_of_ne_nil {t : Token} {x : List Char} {content : String} (hx : x ≠ [])
    (h : Scan.token (t.text ++ x) = some (t.kind, t.text.length)) (hkind : t.kind = .comment content) :
    t.text = '/' :: '*' :: (content.toList ++ ['*', '/']) := by
  rw [hkind] at h
  obtain ⟨ds, hds, rfl, hlength⟩ := (Scan.reading_of_token h).of_comment
  rw [String.toList_ofList]
  rcases Scan.commentContent_cases ds with hall | ⟨es, hes⟩
  · have hfull := congrArg List.length hds
    have hpos := List.length_pos_iff.2 hx
    simp only [Scan.comment, hall, List.length_append, List.length_cons] at hlength hfull
    omega
  · exact Scan.text_of_closed hds hlength hes

end Token
end GradientFallback
