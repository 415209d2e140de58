import GradientFallback.Proofs.Token.Cutting
import GradientFallback.Proofs.Token.Peeking

/-! # Searching ahead

A search looks at one token after the other until one stops it that stands outside of all
parentheses opened since its start, or until the text ends.  Every search comes to an end, whatever
the reader keeps and still has to read: at the first token that may stop it.  It also tells where
the last token in front stands that is no trivia.
-/
namespace GradientFallback

/-- Where a search ends. -/
structure Terminator where
  /-- The number of the token that ends it. -/
  index : Nat
  /-- The number behind the last token passed that is no trivia, or else where the search starts. -/
  trimmed : Nat
  deriving DecidableEq

namespace Token

variable {token : Nat → Token} {stop : Token → Bool} {first : Nat}

/-- How deep token number `i` is nested in what has been opened from number `first` on. -/
def depthAt (token : Nat → Token) (first i : Nat) : Nat :=
  depthBehind 0 ((List.range' first (i - first)).map token)

@[simp] theorem depthAt_self (token : Nat → Token) (first : Nat) : depthAt token first first = 0 := by
  rw [depthAt, Nat.sub_self]
  rfl

theorem depthAt_succ {i : Nat} (h : first ≤ i) :
    depthAt token first (i + 1) = nest (depthAt token first i) (token i).kind := by
  have hlast : first + (i - first) = i := by omega
  rw [depthAt, Nat.succ_sub h, List.range'_1_concat, List.map_append, depthBehind_append, hlast]
  rfl

/-- Token number `i` ends a search from number `first` on. -/
def EndsSearch (token : Nat → Token) (stop : Token → Bool) (first i : Nat) : Prop :=
  (token i).kind = .endOfText ∨ depthAt token first i = 0 ∧ stop (token i) = true

/-- What is written from number `first` on in front of number `i` ends in front of number `last`. -/
structure Trims (token : Nat → Token) (first i last : Nat) : Prop where
  first_le : first ≤ last
  le_index : last ≤ i
  trivia : ∀ j, last ≤ j → j < i → (token j).isTrivia = true
  written : last = first ∨ (token (last - 1)).isTrivia = false

namespace Trims

variable {i last : Nat}

theorem self (token : Nat → Token) (first : Nat) : Trims token first first first :=
  ⟨le_rfl, le_rfl, fun _ hle hlt => absurd hle (Nat.not_le.2 hlt), .inl rfl⟩

/-- One more token is trivia, or what is written ends with it. -/
theorem succ (h : Trims token first i last) :
    Trims token first (i + 1) (if (token i).isTrivia then last else i + 1) := by
  split
  · next htrivia =>
    refine ⟨h.first_le, Nat.le_succ_of_le h.le_index, fun j hle hlt => ?_, h.written⟩
    rcases Nat.lt_succ_iff_lt_or_eq.1 hlt with hlt | rfl
    · exact h.trivia j hle hlt
    · exact htrivia
  · next htrivia =>
    have hfirst := h.first_le.trans h.le_index
    exact ⟨Nat.le_succ_of_le hfirst, le_rfl, fun _ hle hlt => absurd hle (Nat.not_le.2 hlt),
      .inr (Bool.eq_false_iff.2 htrivia)⟩

theorem le_of {last' : Nat} (h : Trims token first i last) (h' : Trims token first i last') :
    last ≤ last' := by
  rcases h.written with rfl | hwritten
  · exact h'.first_le
  · by_contra hlt
    have htrivia := h'.trivia (last - 1) (by omega) (by have := h.le_index; omega)
    rw [hwritten] at htrivia
    exact Bool.false_ne_true htrivia

theorem unique {last' : Nat} (h : Trims token first i last) (h' : Trims token first i last') :
    last = last' := le_antisymm (h.le_of h') (h'.le_of h)

end Trims
end Token

/-- The search from number `first` on ends at the first token that ends it, and what is written in
front of this token is told from the trivia behind. -/
structure Terminator.Exact (token : Nat → Token) (stop : Token → Bool) (first : Nat)
    (e : Terminator) : Prop where
  isLeast : IsLeast {i | first ≤ i ∧ Token.EndsSearch token stop first i} e.index
  trims : Token.Trims token first e.index e.trimmed

namespace Terminator

variable {token : Nat → Token} {stop : Token → Bool} {first : Nat}

theorem Exact.unique {e e' : Terminator} (h : Exact token stop first e)
    (h' : Exact token stop first e') : e = e' := by
  obtain ⟨index, trimmed⟩ := e
  obtain ⟨index', trimmed'⟩ := e'
  obtain rfl : index = index' := h.isLeast.unique h'.isLeast
  obtain rfl : trimmed = trimmed' := h.trims.unique h'.trims
  rfl

end Terminator

namespace TokenReader

/-! ## Looking ahead, whatever the reader keeps -/

@[simp] theorem fetch_ahead (r : TokenReader) : r.fetch.2.ahead = r.ahead := by
  unfold fetch
  split <;> rfl

theorem fill_add (m n : Nat) (r : TokenReader) : r.fill (m + n) = (r.fill m).fill n := by
  induction m generalizing r with
  | zero => rw [Nat.zero_add, fill]
  | succ m ih =>
    rw [Nat.succ_add]
    exact ih _

theorem fill_one (r : TokenReader) :
    r.fill 1 = { r.fetch.2 with ahead := r.ahead ++ [r.fetch.1] } := by
  rw [← fetch_ahead]
  rfl

@[simp] theorem length_fill (n : Nat) (r : TokenReader) :
    (r.fill n).ahead.length = r.ahead.length + n := by
  induction n with
  | zero => rfl
  | succ n ih =>
    rw [fill_add, fill_one, List.length_append, ih]
    rfl

theorem ahead_isPrefix (n : Nat) (r : TokenReader) : r.ahead <+: (r.fill n).ahead := by
  induction n with
  | zero => exact List.prefix_rfl
  | succ n ih =>
    rw [fill_add, fill_one]
    exact ih.trans (List.prefix_append _ _)

theorem look_snd (n : Nat) (r : TokenReader) : (r.look n).2 = r.fill (n + 1 - r.ahead.length) := rfl

/-- A token is looked at where it is kept once enough tokens are read. -/
theorem getElem?_fill {m n : Nat} {r : TokenReader} (h : n < r.ahead.length + m) :
    (r.fill m).ahead[n]? = some (r.look n).1 := by
  obtain ⟨more, rfl⟩ := Nat.exists_eq_add_of_le (show n + 1 - r.ahead.length ≤ m by omega)
  have hkept : n < (r.fill (n + 1 - r.ahead.length)).ahead.length := by
    rw [length_fill]
    omega
  have hlook : (r.look n).1 = (r.fill (n + 1 - r.ahead.length)).ahead[n] := by
    rw [look, require, List.getElem?_eq_getElem hkept, Option.getD_some]
  rw [fill_add, hlook]
  exact List.prefix_iff_getElem?.1 (ahead_isPrefix _ _) n hkept

theorem look_fill (m n : Nat) (r : TokenReader) : ((r.fill m).look n).1 = (r.look n).1 := by
  have hfilled : ((r.fill m).fill (n + 1)).ahead[n]? = some ((r.fill m).look n).1 :=
    getElem?_fill (by omega)
  rw [← fill_add, getElem?_fill (by omega)] at hfilled
  exact (Option.some.inj hfilled).symm

/-- What has been looked at before makes no difference. -/
theorem look_look (m n : Nat) (r : TokenReader) : ((r.look m).2.look n).1 = (r.look n).1 :=
  look_fill _ n r

/-- The most tokens there can be from `n` places ahead on, but for those for the end. -/
def remaining (n : Nat) (r : TokenReader) : Nat := r.ahead.length - n + r.unread.length

theorem unread_fetch_le (r : TokenReader) : r.fetch.2.unread.length ≤ r.unread.length := by
  unfold fetch
  split
  · rw [List.length_drop]
    exact Nat.sub_le _ _
  · exact le_rfl

theorem unread_fetch_lt {r : TokenReader} (h : r.fetch.1.kind ≠ .endOfText) :
    r.fetch.2.unread.length < r.unread.length := by
  unfold fetch at h ⊢
  split
  · next hread =>
    have hwidth := Scan.token_width hread
    rw [List.length_drop]
    omega
  · next hread =>
    rw [hread] at h
    exact absurd rfl h

theorem unread_fill_le (n : Nat) (r : TokenReader) : (r.fill n).unread.length ≤ r.unread.length := by
  induction n with
  | zero => exact le_rfl
  | succ n ih =>
    rw [fill_add, fill_one]
    exact (unread_fetch_le _).trans ih

/-- Behind a token that is not the one for the end there are fewer left. -/
theorem remaining_look {n : Nat} {r : TokenReader} (h : (r.look n).1.kind ≠ .endOfText) :
    (r.look n).2.remaining (n + 1) < r.remaining n := by
  rw [look_snd]
  rcases Nat.lt_or_ge n r.ahead.length with hkept | hread
  -- A token that is kept is passed; otherwise the last of those read now is the one looked at.
  · rw [Nat.sub_eq_zero_of_le hkept, remaining, remaining, fill]
    omega
  · obtain ⟨m, rfl⟩ := Nat.exists_eq_add_of_le hread
    have hm : r.ahead.length + m + 1 - r.ahead.length = m + 1 := by omega
    have htoken : (r.fill (m + 1)).ahead[r.ahead.length + m]? = some (r.fill m).fetch.1 := by
      rw [fill_add, fill_one, ← length_fill, List.getElem?_concat_length]
    rw [getElem?_fill (by omega)] at htoken
    rw [Option.some.inj htoken] at h
    have hunread : (r.fill (m + 1)).unread = (r.fill m).fetch.2.unread := by
      rw [fill_add, fill_one]
    have hlt := (unread_fetch_lt h).trans_le (unread_fill_le m r)
    rw [hm, remaining, remaining, length_fill, hunread]
    omega

/-! ## The search -/

/-- Goes on with a search `n` places ahead, `depth` parentheses deep, with `trimmed` as the number
behind the last token so far that is no trivia. -/
def searchFrom (stop : Token → Bool) (depth trimmed n : Nat) (r : TokenReader) :
    Terminator × TokenReader :=
  let t := (r.look n).1
  if hends : t.kind = .endOfText ∨ depth = 0 ∧ stop t = true then (⟨n, trimmed⟩, (r.look n).2)
  else
    searchFrom stop (Token.nest depth t.kind) (if t.isTrivia then trimmed else n + 1) (n + 1)
      (r.look n).2
termination_by r.remaining n
decreasing_by exact remaining_look fun hend => hends (.inl hend)

/-- Searches from `first` places ahead on for a token outside of all parentheses with `stop`, or for
the end of the text. -/
def search (stop : Token → Bool) (first : Nat) (r : TokenReader) : Terminator × TokenReader :=
  searchFrom stop 0 first first r

variable {token : Nat → Token} {stop : Token → Bool} {first : Nat}

/-- What a search has found out when it comes to token number `n`. -/
structure Searching (token : Nat → Token) (stop : Token → Bool) (first depth trimmed n : Nat) :
    Prop where
  depth_eq : depth = Token.depthAt token first n
  passed : ∀ i, first ≤ i → i < n → ¬ Token.EndsSearch token stop first i
  trims : Token.Trims token first n trimmed

namespace Searching

variable {depth trimmed n : Nat}

theorem start (token : Nat → Token) (stop : Token → Bool) (first : Nat) :
    Searching token stop first 0 first first :=
  ⟨(Token.depthAt_self token first).symm, fun _ hle hlt => absurd hle (Nat.not_le.2 hlt),
    .self token first⟩

theorem first_le (h : Searching token stop first depth trimmed n) : first ≤ n :=
  h.trims.first_le.trans h.trims.le_index

/-- A token that does not end the search is passed. -/
theorem next (h : Searching token stop first depth trimmed n)
    (hgoes : ¬((token n).kind = .endOfText ∨ depth = 0 ∧ stop (token n) = true)) :
    Searching token stop first (Token.nest depth (token n).kind)
      (if (token n).isTrivia then trimmed else n + 1) (n + 1) := by
  rw [h.depth_eq] at hgoes ⊢
  refine ⟨(Token.depthAt_succ h.first_le).symm, fun i hle hlt => ?_, h.trims.succ⟩
  rcases Nat.lt_succ_iff_lt_or_eq.1 hlt with hlt | rfl
  · exact h.passed i hle hlt
  · exact hgoes

theorem exact (h : Searching token stop first depth trimmed n)
    (hends : (token n).kind = .endOfText ∨ depth = 0 ∧ stop (token n) = true) :
    Terminator.Exact token stop first ⟨n, trimmed⟩ := by
  rw [h.depth_eq] at hends
  refine ⟨⟨⟨h.first_le, hends⟩, fun i hi => ?_⟩, h.trims⟩
  by_contra hlt
  exact h.passed i hi.1 (Nat.lt_of_not_le hlt) hi.2

end Searching

/-- What a search has found out holds up to its end, however many tokens it reads on the way. -/
theorem searchFrom_exact {depth trimmed n : Nat} {r : TokenReader}
    (hlook : ∀ m, (r.look m).1 = token m) (h : Searching token stop first depth trimmed n) :
    Terminator.Exact token stop first (r.searchFrom stop depth trimmed n).1 ∧
      ∀ m, ((r.searchFrom stop depth trimmed n).2.look m).1 = token m := by
  -- The induction follows the search; the reader changes, but the tokens ahead of it do not.
  induction depth, trimmed, n, r using searchFrom.induct stop with
  | case1 depth trimmed n r t hends =>
    rw [searchFrom, dif_pos hends]
    rw [show t = token n from hlook n] at hends
    exact ⟨h.exact hends, fun m => (look_look n m r).trans (hlook m)⟩
  | case2 depth trimmed n r t hgoes ih =>
    rw [searchFrom, dif_neg hgoes]
    rw [show t = token n from hlook n] at hgoes ih
    have hothers := ih (fun m => (look_look n m r).trans (hlook m)) (h.next hgoes)
    rw [hlook n]
    exact hothers

/-- A search ends at the first token that ends it, whatever the reader keeps and still has to read, and
the tokens ahead stay what they were. -/
theorem search_exact (r : TokenReader) (stop : Token → Bool) (first : Nat) :
    Terminator.Exact (fun n => (r.look n).1) stop first (r.search stop first).1 ∧
      ∀ n, ((r.search stop first).2.look n).1 = (r.look n).1 :=
  searchFrom_exact (fun _ => rfl) (.start _ stop first)

end TokenReader
end GradientFallback
