import GradientFallback.Text.Fields
import GradientFallback.Text.Location

/-! # Source around an error

A snippet shows the line of an error with its number, a mark below the column of the error, and up
to five lines on both sides.
-/
namespace GradientFallback
namespace CommandLine

/-- The lines of a text, without the line feeds. -/
def linesOf (text : String) : List String := (cutAt (· == '\n') text.toList).map String.ofList

/-- The number of lines shown on each side. -/
def reach : Nat := 5

/-- The column from which on an error is not shown. -/
def farColumn : Nat := 1000

/-- A line with its number in front. -/
def numberedLine (number : Nat) (line : String) : String :=
  let digits := toString number
  digits ++ String.ofList (List.replicate (5 - digits.length) ' ') ++ "|" ++ line ++ "\n"

/-- The mark below the given column, counted from zero. -/
def markLine (column : Nat) : String :=
  "   ---" ++ String.ofList (List.replicate column '-') ++ "^\n"

/-- The lines from `first` on, counted from zero, with the mark behind the line `marked`. -/
def shownLines (marked column first : Nat) : List String → String
  | [] => ""
  | line :: lines =>
    numberedLine (first + 1) line ++ (if first = marked then markLine column else "") ++
      shownLines marked column (first + 1) lines

def snippet (text : String) (l : Location) : String :=
  let marked := l.line - 1
  let column := l.column - 2
  if column > farColumn then "Error is too far to the right to display.\n"
  else
    let first := marked - reach
    let shown := ((linesOf text).drop first).take (marked + reach + 1 - first)
    "\n" ++ shownLines marked column first shown ++ "\n"

end CommandLine
end GradientFallback
