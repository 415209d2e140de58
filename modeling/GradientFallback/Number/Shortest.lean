import GradientFallback.Number.Binary

/-! # Shortest decimal text of a binary number

Of the decimals that round to a binary number, those with the fewest digits are taken, of them the
nearest, and of two equally near ones the larger in size.  The digits are written out in full, without an exponent and without a point where
there is no fraction.
-/
namespace GradientFallback
namespace Shortest

/-- The reals that round to a positive number: from `low` to `high`, around `value`, all over the
one denominator `unit`; the ends belong to it when `closed`. -/
structure Interval where
  low : Nat
  value : Nat
  high : Nat
  unit : Nat
  closed : Bool

def powerOfTen (n : Nat) : Nat := Nat.pow 10 n

/-- Half way to the neighbours of a 64-bit number; the lower one is nearer at a power of two. -/
def Interval.around (mantissa : Nat) (exponent : Int) : Interval :=
  let scale := Binary.powerOfTwo exponent.toNat
  let unit := 4 * Binary.powerOfTwo (-exponent).toNat
  let below := if mantissa = Binary.powerOfTwo 52 ∧ exponent > Binary.floor64 then 1 else 2
  ⟨(4 * mantissa - below) * scale, 4 * mantissa * scale, (4 * mantissa + 2) * scale, unit,
    mantissa % 2 == 0⟩

/-- Whether `digits * 10 ^ power` lies in the interval. -/
def Interval.contains (i : Interval) (digits : Nat) (power : Int) : Bool :=
  let up := powerOfTen power.toNat
  let down := powerOfTen (-power).toNat
  let x := digits * up * i.unit
  if i.closed then i.low * down ≤ x && x ≤ i.high * down else i.low * down < x && x < i.high * down

/-- Of the multiples of `10 ^ power` on both sides of the value the nearer one, or the upper one if
both are equally near, or else the other one, if it lies in the interval. -/
def Interval.neighbour? (i : Interval) (power : Int) : Option Nat :=
  let up := powerOfTen power.toNat
  let down := powerOfTen (-power).toNat
  let step := up * i.unit
  let below := i.value * down / step
  let nearer := if 2 * (i.value * down - below * step) < step then below else below + 1
  let farther := if nearer = below then below + 1 else below
  if i.contains nearer power then some nearer
  else if i.contains farther power then some farther
  else none

/-- Tries the powers of ten from `power` downwards, at most `tries` of them. -/
def Interval.search (i : Interval) : Nat → Int → Nat × Int
  | 0, power => (i.value * powerOfTen (-power).toNat / i.unit, power)
  | tries + 1, power =>
    match i.neighbour? power with
    | some digits => (digits, power)
    | none => i.search tries (power - 1)

/-- A power of ten above the number `mantissa * 2 ^ exponent`, and not far above. -/
def upperPower (mantissa : Nat) (exponent : Int) : Int :=
  (mantissa.log2 + exponent + 1) * 30103 / 100000 + 1

/-- The fewest digits, and the power of ten they count, for a positive number of 64 bits. -/
def digits (mantissa : Nat) (exponent : Int) : Nat × Int :=
  (Interval.around mantissa exponent).search 24 (upperPower mantissa exponent)

/-- The number `digits * 10 ^ power` written without an exponent. -/
def positional (digits : Nat) (power : Int) : String :=
  let ds := Nat.toDigits 10 digits
  if 0 ≤ power then String.ofList (ds ++ List.replicate power.natAbs '0')
  else
    let places := power.natAbs
    let padded := List.replicate (places + 1 - ds.length) '0' ++ ds
    String.ofList (padded.take (padded.length - places) ++ '.' :: padded.drop (padded.length - places))

end Shortest

/-- The shortest positional text of a 64-bit number. -/
def numberText (x : Float) : String :=
  match Binary.ofFloat? x with
  | some b =>
    let size :=
      if b.mantissa = 0 then "0"
      else
        let (digits, power) := Shortest.digits b.mantissa b.exponent
        Shortest.positional digits power
    if b.negative then "-" ++ size else size
  | none => if x.isNaN then "NaN" else if x < 0 then "-inf" else "inf"

end GradientFallback
