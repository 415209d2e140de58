import GradientFallback.Gradient.Basic
import GradientFallback.Number.Binary

/-! # Numbers for angles

Angles need the four operations, comparison, rounding and the remainder of a division.  Binary
numbers round after every step; rational numbers are exact.
-/
namespace GradientFallback

class AngleNumber (α : Type) extends Add α, Sub α, Mul α, Div α where
  ofNat : Nat → α
  le : α → α → Bool
  lt : α → α → Bool
  abs : α → α
  /-- The nearest whole number, a half rounded away from zero. -/
  round : α → α
  /-- What a division with the quotient cut off leaves; it has the sign of the dividend. -/
  remainder : α → α → α
  /-- The radians of a full turn. -/
  fullTurn : α

instance : AngleNumber Float where
  ofNat n := Float.ofNat n
  le x y := x ≤ y
  lt x y := x < y
  abs x := x.abs
  round := roundFloat
  remainder := remainderFloat
  fullTurn := Float.ofBits 0x401921fb54442d18

/-- The whole number next to `x` on the side of zero. -/
def truncate (x : Rat) : Int := x.num.tdiv x.den

instance : AngleNumber Rat where
  ofNat n := mkRat (Int.ofNat n) 1
  le x y := x ≤ y
  lt x y := x < y
  abs x := x.abs
  round x :=
    let half := mkRat 1 2
    Rat.ofInt (if 0 ≤ x.num then truncate (x + half) else truncate (x - half))
  remainder x y := x - y * Rat.ofInt (truncate (x / y))
  fullTurn := mkRat 0x1921fb54442d18 (Nat.pow 2 50)

namespace AngleUnit

variable {α : Type} [AngleNumber α]

/-- The size of a full turn. -/
def perTurn : AngleUnit → α
  | deg => AngleNumber.ofNat 360
  | grad => AngleNumber.ofNat 400
  | rad => AngleNumber.fullTurn
  | turn => AngleNumber.ofNat 1

/-- An angle in degrees. -/
def degrees (value : α) (u : AngleUnit) : α := value / u.perTurn * AngleNumber.ofNat 360

end AngleUnit
end GradientFallback
