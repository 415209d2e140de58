import GradientFallback.Gradient.Angle

/-! # Directions

A legacy filter runs along one axis only.  A heading that runs to one side keeps its direction; any
other heading is approximated by a side.
-/
namespace GradientFallback

/-- What is given up when a heading is approximated. -/
inductive Approximation where
  | angle
  | corner
  deriving DecidableEq

def Approximation.message : Approximation → String
  | angle =>
    "IE filter doesn't support angular gradient, we use the closest side as the fallback."
  | corner =>
    "IE filter doesn't support side corner gradient, we use the first side of the side corner as fallback."

/-- The side that a gradient runs to, and how it was found if it is not exact. -/
structure Direction where
  side : Side
  approximation : Option Approximation
  deriving DecidableEq

namespace Direction

def exact (s : Side) : Direction := ⟨s, none⟩

variable {α : Type} [AngleNumber α]

/-- The greatest distance from a side, in quarter turns, at which an angle counts as exact. -/
def tolerance : α := AngleNumber.ofNat 1 / AngleNumber.ofNat 1000000000

/-- Whether an angle in degrees runs to no side. -/
def isSkew (degrees : α) : Bool :=
  let quarters := degrees / AngleNumber.ofNat 90
  AngleNumber.lt tolerance (AngleNumber.abs (quarters - AngleNumber.round quarters))

/-- An angle in degrees brought into one turn. -/
def withinTurn (degrees : α) : α :=
  AngleNumber.remainder (AngleNumber.remainder degrees (AngleNumber.ofNat 360) +
    AngleNumber.ofNat 360) (AngleNumber.ofNat 360)

/-- The side closest to an angle in degrees, clockwise from the top; between two sides the one
before. -/
def closestSide (degrees : α) : Side :=
  let eighths := withinTurn degrees / AngleNumber.ofNat 45
  let upTo (n : Nat) : Bool := AngleNumber.le eighths (AngleNumber.ofNat n)
  if upTo 1 then .top
  else if upTo 3 then .right
  else if upTo 5 then .bottom
  else if upTo 7 then .left
  else .top

def ofDegrees (degrees : α) : Direction :=
  ⟨closestSide degrees, if isSkew degrees then some .angle else none⟩

/-- The sides with those of the vertical axis in front. -/
def verticalFirst (sides : List Side) : List Side :=
  sides.filter (fun s => s.axis = .vertical) ++ sides.filter fun s => s.axis ≠ .vertical

/-- The first of the sides, vertical ones before others. -/
def ofSides (sides : List Side) (toward : Bool) : Direction :=
  match verticalFirst sides with
  | [] => exact .bottom
  | s :: others =>
    ⟨if toward then s else s.inverse, if others.isEmpty then none else some .corner⟩

/-- The direction of a heading; without one a gradient runs to the bottom. -/
def ofHeading : Heading α → Direction
  | .angle value unit => ofDegrees (unit.degrees value)
  | .corner sides toward => ofSides sides toward
  | .none => exact .bottom

end Direction
end GradientFallback
