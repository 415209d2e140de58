import GradientFallback.Text.Letters

/-! # Decimal numerals

A numeral is an optional sign, digits with an optional point and an optional exponent of ten, or
one of the words for infinity and for no number.  Its value is rounded to the nearest binary
number of the width asked for; one that is too large becomes infinite.
-/
namespace GradientFallback

/-- The number `± digits * 10 ^ exponent`. -/
structure Decimal where
  negative : Bool
  digits : Nat
  exponent : Int
  deriving DecidableEq

inductive Numeral where
  | finite (d : Decimal)
  | infinite (negative : Bool)
  | notANumber
  deriving DecidableEq

namespace Decimal

/-- An optional sign in front, and whether it is a minus. -/
def sign : List Char → Bool × List Char
  | '+' :: cs => (false, cs)
  | '-' :: cs => (true, cs)
  | cs => (false, cs)

/-- Reads all of a text as an exponent, `e` and a signed number, or nothing. -/
def exponent? : List Char → Option Int
  | [] => some 0
  | e :: cs =>
    let (negative, digits) := sign cs
    if e.toLower = 'e' ∧ digits ≠ [] ∧ digits.all isDigit then
      let n : Int := digitsValue 10 digits
      some (if negative then -n else n)
    else none

/-- Digits after a point, if there is one, and what follows them. -/
def fraction : List Char → List Char × List Char
  | '.' :: cs => cs.span isDigit
  | cs => ([], cs)

/-- Reads all of a text as a decimal without a sign. -/
def unsigned? (negative : Bool) (cs : List Char) : Option Decimal :=
  let (whole, afterWhole) := cs.span isDigit
  let (parts, afterPoint) := fraction afterWhole
  if whole = [] ∧ parts = [] then none
  else (exponent? afterPoint).map fun e =>
    ⟨negative, digitsValue 10 (whole ++ parts), e - parts.length⟩

/-- The power of ten from which on a number exceeds every finite binary number. -/
def largestPower : Int := 400

/-- Whether the number is so large that it rounds to infinity at any width. -/
def isHuge (d : Decimal) : Bool := d.digits != 0 && d.exponent > largestPower

/-- Whether the number is so small that it rounds to zero at any width. -/
def isTiny (d : Decimal) : Bool :=
  d.digits == 0 || d.exponent + d.digits.log2 + 1 < -largestPower

/-- The nearest binary number of 64 bits. -/
def toFloat (d : Decimal) : Float :=
  let size : Float :=
    if d.isHuge then 1 / 0
    else if d.isTiny then 0
    else Float.ofScientific d.digits (d.exponent < 0) d.exponent.natAbs
  if d.negative then -size else size

/-- The nearest binary number of 32 bits. -/
def toFloat32 (d : Decimal) : Float32 :=
  let size : Float32 :=
    if d.isHuge then 1 / 0
    else if d.isTiny then 0
    else Float32.ofScientific d.digits (d.exponent < 0) d.exponent.natAbs
  if d.negative then -size else size

end Decimal

namespace Numeral

/-- Reads all of a text as a numeral. -/
def read? (cs : List Char) : Option Numeral :=
  let (negative, digits) := Decimal.sign cs
  let word := String.ofList (digits.map Char.toLower)
  if word = "inf" ∨ word = "infinity" then some (.infinite negative)
  else if word = "nan" then some .notANumber
  else (Decimal.unsigned? negative digits).map .finite

def toFloat : Numeral → Float
  | finite d => d.toFloat
  | infinite negative => if negative then -(1 / 0) else 1 / 0
  | notANumber => 0 / 0

def toFloat32 : Numeral → Float32
  | finite d => d.toFloat32
  | infinite negative => if negative then -(1 / 0) else 1 / 0
  | notANumber => 0 / 0

end Numeral
end GradientFallback
