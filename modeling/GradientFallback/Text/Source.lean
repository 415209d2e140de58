import GradientFallback.Text.Location
import GradientFallback.Text.Blank
import GradientFallback.Text.Letters

/-! # Sources

A source is the text that a reader works on, with one kind of line end: a carriage return in
front of a line feed is left out, one that stands alone is kept.  All positions count characters
of the text that results.
-/
namespace GradientFallback

/-- Leaves out every carriage return that stands in front of a line feed. -/
def unifyLineEnds : List Char → List Char
  | [] => []
  | c :: cs => if c = '\r' ∧ cs.head? = some '\n' then unifyLineEnds cs else c :: unifyLineEnds cs

/-- A text and the number of characters of it that have been passed. -/
structure Source where
  chars : List Char
  position : Nat
  position_le : position ≤ chars.length

namespace Source

def ofString (s : String) : Source := ⟨unifyLineEnds s.toList, 0, Nat.zero_le _⟩

/-- The characters from the position on. -/
def rest (s : Source) : List Char := s.chars.drop s.position

def atEnd (s : Source) : Bool := s.position == s.chars.length

/-- The character `n` places ahead, or none behind the end. -/
def look (s : Source) (n : Nat) : Option Char := s.chars[s.position + n]?

/-- Passes one character; at the end the source stays as it is. -/
def next (s : Source) : Source :=
  if h : s.position < s.chars.length then ⟨s.chars, s.position + 1, h⟩ else s

/-- Passes `n` characters, or all that are left. -/
def skip (s : Source) (n : Nat) : Source :=
  ⟨s.chars, min (s.position + n) s.chars.length, Nat.min_le_right _ _⟩

end Source

/-- The characters from position `first` up to `last`, as far as there are any. -/
def cut (cs : List Char) (first last : Nat) : List Char := (cs.take last).drop first

end GradientFallback
