import GradientFallback.Color.Parser
import GradientFallback.Gradient.Direction
import GradientFallback.Gradient.Parser

/-! # Legacy filters

A legacy filter runs from one color to another, from the top to the bottom or from the left to the
right.  It takes the first and the last color of a gradient, in turned order where the gradient
runs the other way.
-/
namespace GradientFallback

/-- Why there is no filter for a gradient. -/
inductive GradientError where
  | syntaxError (text : String)
  | colorError (cause : ColorError) (text : String)
  deriving DecidableEq

def GradientError.message : GradientError → String
  | syntaxError text => "`" ++ text ++ "` is not a valid linear gradient value."
  | colorError cause text => cause.message ++ " in `" ++ text ++ "`"

/-- A filter and what it leaves out of the gradient. -/
structure LegacyFilter where
  value : String
  isMultiColor : Bool
  approximation : Option Approximation
  deriving DecidableEq

namespace LegacyFilter

/-- The filter from one color to another along an axis. -/
def valueOf (start finish : Color) (axis : Axis) : String :=
  "progid:DXImageTransform.Microsoft.gradient( startColorstr='" ++ start.argbText ++
    "', endColorstr='" ++ finish.argbText ++ "',GradientType=" ++ axis.filterType ++ " )"

/-- The filter between two colors as they are written. -/
def ofColors (start finish : String) (axis : Axis) : Except ColorError String :=
  match Color.parse start with
  | .error e => .error e
  | .ok s =>
    match Color.parse finish with
    | .error e => .error e
    | .ok f => .ok (valueOf s f axis)

/-- Whether a filter has to be turned round to run to the side. -/
def isTurned : Side → Bool
  | .top => true
  | .left => true
  | _ => false

variable {α : Type} [AngleNumber α]

/-- The filter for a gradient that is written as `text`. -/
def ofGradient (g : Gradient α) (text : String) : Except GradientError LegacyFilter :=
  let direction := Direction.ofHeading g.heading
  let colors :=
    if isTurned direction.side then (g.lastColor, g.firstColor) else (g.firstColor, g.lastColor)
  match ofColors colors.1 colors.2 direction.side.axis with
  | .ok value => .ok ⟨value, g.isMultiColor, direction.approximation⟩
  | .error cause => .error (.colorError cause text)

/-- The filter for the gradient at the front of a text. -/
def ofText (text : String) : Except GradientError LegacyFilter :=
  match Gradient.parse? text with
  | some g => ofGradient g text
  | none => .error (.syntaxError text)

end LegacyFilter
end GradientFallback
