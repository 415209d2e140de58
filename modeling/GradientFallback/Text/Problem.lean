import GradientFallback.Text.Location

/-! # Problems

A problem is a message about a text, with the place it is about if there is one.
-/
namespace GradientFallback

structure Problem where
  message : String
  location : Option Location
  deriving DecidableEq

namespace Problem

/-- The message with the place behind it. -/
def text (p : Problem) : String :=
  match p.location with
  | some l => p.message ++ " at " ++ l.bracketed
  | none => p.message

/-- The problem as a failure to read a stylesheet. -/
def parseFailure (p : Problem) : String := "parse error: " ++ p.text

end Problem
end GradientFallback
