import GradientFallback.Text.Blank
import Mathlib.Data.List.TakeWhile

/-! # Trimmed texts

What is cut off at the ends of a text are blanks, and what is kept neither starts nor ends with one.
So a trimmed text is left as it is by trimming, and no other character is lost.
-/
namespace GradientFallback

section Ends

variable {α : Type} (p : α → Bool)

theorem dropTrailing_last (xs : List α) : ∀ x ∈ (dropTrailing p xs).getLast?, p x = false := by
  induction xs with
  | nil => exact nofun
  | cons x xs ih =>
    rw [dropTrailing_cons]
    rcases hd : dropTrailing p xs with _ | ⟨y, ys⟩
    · by_cases hx : p x = true <;> simp [hx]
    · rw [hd] at ih
      simpa using ih

theorem trailing_all (xs : List α) : ∀ x ∈ trailing p xs, p x = true := by
  induction xs with
  | nil => exact nofun
  | cons x xs ih =>
    unfold trailing at ih ⊢
    rw [dropTrailing_cons]
    rcases hd : dropTrailing p xs with _ | ⟨y, ys⟩
    · rw [hd] at ih
      by_cases hx : p x = true
      · intro z hz
        simp only [hx, List.isEmpty_nil, Bool.and_true, if_true, List.length_nil, List.drop_zero]
          at hz
        rcases List.mem_cons.1 hz with rfl | hz
        · exact hx
        · exact ih z hz
      · simpa [hx] using ih
    · rw [hd] at ih
      simpa using ih

theorem dropTrailing_isPrefix (xs : List α) : dropTrailing p xs <+: xs :=
  ⟨_, dropTrailing_append_trailing p xs⟩

variable {p}

theorem dropTrailing_append {xs ys : List α} (hxs : ∀ x ∈ xs.getLast?, p x = false)
    (hys : ∀ y ∈ ys, p y = true) : dropTrailing p (xs ++ ys) = xs := by
  have hnil : dropTrailing p ys = [] := by
    clear hxs
    induction ys with
    | nil => rfl
    | cons y ys ih =>
      rw [dropTrailing_cons, ih fun z hz => hys z (List.mem_cons_of_mem y hz)]
      simp [hys y List.mem_cons_self]
  induction xs with
  | nil => exact hnil
  | cons x xs ih =>
    rw [List.cons_append, dropTrailing_cons]
    cases xs with
    | nil =>
      have hx : p x = false := hxs x rfl
      simp [hx, hnil]
    | cons z zs => rw [ih fun w hw => hxs w (by simpa using hw)]; simp

end Ends

/-- Neither end of the text is blank. -/
structure IsTrimmed (cs : List Char) : Prop where
  first : ∀ c ∈ cs.head?, isBlank c = false
  last : ∀ c ∈ cs.getLast?, isBlank c = false

theorem isTrimmed_trim (cs : List Char) : IsTrimmed (trim cs) := by
  refine ⟨fun c hc => ?_, dropTrailing_last isBlank _⟩
  obtain ⟨behind, hbehind⟩ := dropTrailing_isPrefix isBlank (trimStart cs)
  have hstart : (trimStart cs).head? = some c := by
    rw [← hbehind, List.head?_append]
    exact Option.or_eq_some_iff.2 (.inl hc)
  have hfirst := List.head?_dropWhile_not isBlank cs
  rw [trimStart] at hstart
  rw [hstart] at hfirst
  simpa using hfirst

theorem IsTrimmed.trim_eq {cs : List Char} (h : IsTrimmed cs) : trim cs = cs := by
  have hstart : trimStart cs = cs := by
    cases cs with
    | nil => rfl
    | cons c cs => exact List.dropWhile_cons_of_neg (by simp [h.first c rfl])
  have hend := dropTrailing_append h.last (List.forall_mem_nil (isBlank · = true))
  rw [List.append_nil] at hend
  rw [trim, hstart, trimEnd, hend]

/-- Trimming takes nothing away but blanks. -/
theorem filter_trim (cs : List Char) :
    (trim cs).filter (fun c => !isBlank c) = cs.filter fun c => !isBlank c := by
  have hnone {ds : List Char} (h : ∀ c ∈ ds, isBlank c = true) :
      ds.filter (fun c => !isBlank c) = [] := by
    simpa [List.filter_eq_nil_iff] using h
  calc (trim cs).filter (fun c => !isBlank c)
      = (trim cs ++ trailing isBlank (trimStart cs)).filter (fun c => !isBlank c) := by
        rw [List.filter_append, hnone (trailing_all isBlank _), List.append_nil]
    _ = (trimStart cs).filter fun c => !isBlank c := by
        rw [trim, trimEnd, dropTrailing_append_trailing]
    _ = (cs.takeWhile isBlank ++ trimStart cs).filter fun c => !isBlank c := by
        rw [List.filter_append, hnone fun c hc => List.mem_takeWhile_imp hc, List.nil_append]
    _ = cs.filter fun c => !isBlank c := by
        rw [trimStart, List.takeWhile_append_dropWhile]

/-! ## Trimming around a character that stays -/

theorem dropTrailing_append_cons {α : Type} {p : α → Bool} {x : α} (hx : p x = false)
    (xs ys : List α) : dropTrailing p (xs ++ x :: ys) = xs ++ x :: dropTrailing p ys := by
  induction xs with
  | nil => simp [dropTrailing_cons, hx]
  | cons z xs ih =>
    rw [List.cons_append, dropTrailing_cons, ih]
    simp

theorem trailing_append_cons {α : Type} {p : α → Bool} {x : α} (hx : p x = false) (xs ys : List α) :
    trailing p (xs ++ x :: ys) = trailing p ys := by
  have h := dropTrailing_append_trailing p (xs ++ x :: ys)
  rw [dropTrailing_append_cons hx, List.append_assoc, List.cons_append] at h
  have hys := List.append_cancel_left h
  rw [List.cons.injEq] at hys
  exact List.append_cancel_left (hys.2.trans (dropTrailing_append_trailing p ys).symm)

theorem takeWhile_append_cons {α : Type} {p : α → Bool} {x : α} (hx : p x = false) (xs ys : List α) :
    (xs ++ x :: ys).takeWhile p = xs.takeWhile p := by
  induction xs with
  | nil => simp [hx]
  | cons z xs ih => simp only [List.cons_append, List.takeWhile_cons, ih]

theorem dropWhile_append_cons {α : Type} {p : α → Bool} {x : α} (hx : p x = false) (xs ys : List α) :
    (xs ++ x :: ys).dropWhile p = xs.dropWhile p ++ x :: ys := by
  induction xs with
  | nil => simp [hx]
  | cons z xs ih =>
    rw [List.cons_append, List.dropWhile_cons, List.dropWhile_cons, ih]
    split <;> rfl

theorem trim_append_cons {c : Char} (hc : isBlank c = false) (xs ys : List Char) :
    trim (xs ++ c :: ys) = trimStart xs ++ c :: trimEnd ys := by
  rw [trim, trimStart, dropWhile_append_cons hc, trimEnd, dropTrailing_append_cons hc]
  rfl

theorem mem_dropTrailing {α : Type} {p : α → Bool} {x : α} (hx : p x = false) {xs : List α}
    (h : x ∈ xs) : x ∈ dropTrailing p xs := by
  obtain ⟨front, back, rfl⟩ := List.append_of_mem h
  rw [dropTrailing_append_cons hx]
  exact List.mem_append_right front List.mem_cons_self

end GradientFallback
