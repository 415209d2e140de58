import GradientFallback.Text.Blank
import GradientFallback.Text.Fields

/-! # Lists separated by commas

A value falls into parts at the commas that stand outside parentheses and quotes and are not
escaped.  Blanks around a part do not belong to it, and an empty part is none.
-/
namespace GradientFallback
namespace Comma

/-- Where a scan stands: how many parentheses are open, in which quotes, behind a backslash. -/
structure State where
  depth : Nat
  quote : Option Char
  escaped : Bool
  deriving DecidableEq

def State.initial : State := ⟨0, none, false⟩

/-- The state behind a character.  A closing parenthesis without its counterpart is passed over. -/
def State.next (s : State) (c : Char) : State :=
  if s.escaped then { s with escaped := false }
  else if c = '\\' then { s with escaped := true }
  else
    match s.quote with
    | some q => if c = q then { s with quote := none } else s
    | none =>
      if c = '"' ∨ c = '\'' then { s with quote := some c }
      else if c = '(' then { s with depth := s.depth + 1 }
      else if c = ')' then { s with depth := s.depth - 1 }
      else s

/-- Whether a comma here separates parts. -/
def State.separates (s : State) (c : Char) : Bool :=
  c == ',' && s.depth == 0 && s.quote.isNone && !s.escaped

/-- The texts between the separating commas. -/
def cutFrom (s : State) : List Char → List (List Char)
  | [] => [[]]
  | c :: cs => if s.separates c then [] :: cutFrom s cs else consFirst c (cutFrom (s.next c) cs)

/-- The parts of a value. -/
def partsOf (cs : List Char) : List (List Char) :=
  ((cutFrom .initial cs).map trim).filter fun p => !p.isEmpty

/-- The parts of a value. -/
def split (value : String) : List String := (partsOf value.toList).map String.ofList

end Comma
end GradientFallback
