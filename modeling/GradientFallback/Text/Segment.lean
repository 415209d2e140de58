/-! # Reading a list piece by piece

A step looks at the elements ahead and reads one piece: a value and the number of elements it is
written with.  `segment` repeats a step until it fails or would read nothing.  The pieces hold the
elements they cover, so they give back the part of the list that was read.
-/
namespace GradientFallback

/-- A value and the elements it was read from. -/
structure Piece (ι α : Type) where
  value : α
  text : List ι

/-- A reader of one piece at the front of a list. -/
abbrev Step (ι α : Type) := List ι → Option (α × Nat)

variable {ι α : Type}

/-- Repeats `step` after passing `pending` elements. -/
def segmentFrom (step : Step ι α) : Nat → List ι → List (Piece ι α)
  | _, [] => []
  | pending + 1, _ :: xs => segmentFrom step pending xs
  | 0, x :: xs =>
    match step (x :: xs) with
    | some (a, n + 1) => ⟨a, x :: xs.take n⟩ :: segmentFrom step n xs
    | _ => []

/-- The pieces that `step` reads one after the other from the front of a list. -/
def segment (step : Step ι α) (xs : List ι) : List (Piece ι α) := segmentFrom step 0 xs

namespace Piece

def values (ps : List (Piece ι α)) : List α := ps.map Piece.value

/-- The elements that the pieces cover. -/
def covered (ps : List (Piece ι α)) : List ι := ps.flatMap Piece.text

/-- The number of elements that the pieces cover. -/
def width (ps : List (Piece ι α)) : Nat := (covered ps).length

end Piece

theorem segmentFrom_eq_drop (step : Step ι α) (n : Nat) (xs : List ι) :
    segmentFrom step n xs = segment step (xs.drop n) := by
  induction xs generalizing n with
  | nil => cases n <;> rfl
  | cons x xs ih =>
    cases n with
    | zero => rfl
    | succ n => exact ih n

@[simp] theorem segment_nil (step : Step ι α) : segment step [] = [] := rfl

theorem segment_cons (step : Step ι α) (x : ι) (xs : List ι) :
    segment step (x :: xs) =
      match step (x :: xs) with
      | some (a, n + 1) => ⟨a, x :: xs.take n⟩ :: segment step (xs.drop n)
      | _ => [] := by
  rw [segment, segmentFrom]
  split <;> simp_all [segmentFrom_eq_drop]

end GradientFallback
