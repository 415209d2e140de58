import GradientFallback.Text.Letters

/-! # Linear gradients

A linear gradient has a heading, which says where it runs to, and color stops.  An angle is given
in numbers of some kind `α`; stylesheets give it in binary numbers, and the laws of angles are laws
of rational numbers.
-/
namespace GradientFallback

inductive AngleUnit where
  | deg
  | grad
  | rad
  | turn
  deriving DecidableEq

def AngleUnit.ofName? (name : String) : Option AngleUnit :=
  match lowerCase name with
  | "deg" => some deg
  | "grad" => some grad
  | "rad" => some rad
  | "turn" => some turn
  | _ => none

inductive Axis where
  | vertical
  | horizontal
  deriving DecidableEq

/-- How a legacy filter calls the axis of a gradient. -/
def Axis.filterType : Axis → String
  | vertical => "0"
  | horizontal => "1"

inductive Side where
  | top
  | right
  | bottom
  | left
  deriving DecidableEq

namespace Side

def ofName? (name : String) : Option Side :=
  match lowerCase name with
  | "top" => some top
  | "right" => some right
  | "bottom" => some bottom
  | "left" => some left
  | _ => none

def name : Side → String
  | top => "top"
  | right => "right"
  | bottom => "bottom"
  | left => "left"

/-- The opposite side. -/
def inverse : Side → Side
  | top => bottom
  | bottom => top
  | left => right
  | right => left

def axis : Side → Axis
  | top => .vertical
  | bottom => .vertical
  | left => .horizontal
  | right => .horizontal

end Side

/-- Where a gradient runs to. -/
inductive Heading (α : Type) where
  | angle (value : α) (unit : AngleUnit)
  /-- One or more sides, which the gradient runs to, or starts from if not `toward`. -/
  | corner (sides : List Side) (toward : Bool)
  | none
  deriving DecidableEq

structure ColorStop where
  color : String
  position : Option String
  deriving DecidableEq

structure Gradient (α : Type) where
  heading : Heading α
  stops : List ColorStop
  deriving DecidableEq

namespace Gradient

variable {α : Type}

/-- The color of the first stop. -/
def firstColor (g : Gradient α) : String := (g.stops.head?.map ColorStop.color).getD ""

/-- The color of the last stop. -/
def lastColor (g : Gradient α) : String := (g.stops.getLast?.map ColorStop.color).getD ""

/-- Whether there are stops besides the first and the last. -/
def isMultiColor (g : Gradient α) : Bool := g.stops.length > 2

end Gradient
end GradientFallback
