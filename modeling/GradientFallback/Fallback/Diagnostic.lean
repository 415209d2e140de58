import GradientFallback.Gradient.Filter

/-! # Warnings

A warning names what was found in a rule or in one of its declarations, and the place.
-/
namespace GradientFallback

inductive Finding where
  /-- The rule has a filter of its own. -/
  | existingFilter
  /-- The value holds more than one gradient. -/
  | multipleGradients
  /-- No filter can be made for the gradient. -/
  | invalid (e : GradientError)
  /-- The filter runs in another direction than the gradient. -/
  | approximated (a : Approximation)
  deriving DecidableEq

def Finding.message : Finding → String
  | existingFilter => "The `filter` declaration already exists, we have skipped this rule."
  | multipleGradients =>
    "IE filter doesn't support multiple gradients, we pick the first as fallback."
  | invalid e => e.message
  | approximated a => a.message

/-- What went wrong: the gradient, one of its colors, or nothing, where something is worth knowing. -/
inductive DiagnosticKind where
  | syntaxError
  | colorError
  | policy
  deriving DecidableEq

def GradientError.kind : GradientError → DiagnosticKind
  | syntaxError _ => .syntaxError
  | colorError _ _ => .colorError

def Finding.kind : Finding → DiagnosticKind
  | invalid e => e.kind
  | _ => .policy

/-- What a warning is about. -/
inductive Subject where
  | rule (selector : String)
  | declaration (property : String)
  deriving DecidableEq

structure Diagnostic where
  finding : Finding
  subject : Subject
  location : Location
  deriving DecidableEq

/-- The place and the message. -/
def Diagnostic.text (d : Diagnostic) : String := d.location.text ++ ": " ++ d.finding.message

end GradientFallback
