/-! # Exact values of binary numbers

A finite binary number is a whole number times a power of two.  Rounding to a whole number and the
remainder of a division are worked out on that exact value, so their results are exact too.
-/
namespace GradientFallback

/-- The number `± mantissa * 2 ^ exponent`. -/
structure Binary where
  negative : Bool
  mantissa : Nat
  exponent : Int
  deriving DecidableEq

namespace Binary

def powerOfTwo (n : Nat) : Nat := Nat.pow 2 n

/-- The value of a bit pattern with a fraction of `width` bits, unless it is infinite or no
number. -/
def ofBits? (width exponentBits bits : Nat) : Option Binary :=
  let fraction := bits % powerOfTwo width
  let biased := bits / powerOfTwo width % powerOfTwo exponentBits
  let negative := bits / powerOfTwo (width + exponentBits) % 2 == 1
  let smallest : Int := 2 - powerOfTwo (exponentBits - 1) - width
  if biased = powerOfTwo exponentBits - 1 then none
  else if biased = 0 then some ⟨negative, fraction, smallest⟩
  else some ⟨negative, fraction + powerOfTwo width, smallest + biased - 1⟩

def ofFloat? (x : Float) : Option Binary := ofBits? 52 11 x.toBits.toNat

def ofFloat32? (x : Float32) : Option Binary := ofBits? 23 8 x.toBits.toNat

/-- The exponent of the smallest positive number of 64 bits. -/
def floor64 : Int := -1074

/-- The 64-bit number with this value, for a value that has one. -/
def toFloat (b : Binary) : Float :=
  let sign := if b.negative then powerOfTwo 63 else 0
  if b.mantissa = 0 then Float.ofBits (UInt64.ofNat sign)
  else
    let shift := min (52 - (b.mantissa.log2 : Int)) (b.exponent - floor64)
    let mantissa :=
      if shift < 0 then b.mantissa / powerOfTwo shift.natAbs
      else b.mantissa * powerOfTwo shift.natAbs
    let hidden := powerOfTwo 52
    let biased := if mantissa < hidden then 0 else (b.exponent - shift - floor64 + 1).toNat
    Float.ofBits (UInt64.ofNat (sign + biased * hidden + mantissa % hidden))

/-- The nearest whole number to the size of the value, a half rounded up. -/
def roundSize (b : Binary) : Nat :=
  if 0 ≤ b.exponent then b.mantissa * powerOfTwo b.exponent.natAbs
  else
    let unit := powerOfTwo b.exponent.natAbs
    (2 * b.mantissa + unit) / (2 * unit)

/-- The nearest whole number, a half rounded away from zero. -/
def round (b : Binary) : Binary := ⟨b.negative, b.roundSize, 0⟩

/-- What is left of `a` after taking away whole multiples of `b`, with the sign of `a`. -/
def remainder (a b : Binary) : Binary :=
  let low := min a.exponent b.exponent
  let size (x : Binary) : Nat := x.mantissa * powerOfTwo (x.exponent - low).toNat
  ⟨a.negative, size a % size b, low⟩

end Binary

/-- The nearest whole number, a half rounded away from zero. -/
def roundFloat (x : Float) : Float :=
  match Binary.ofFloat? x with
  | some b => if 0 ≤ b.exponent then x else b.round.toFloat
  | none => x

/-- The remainder of the division of `x` by `y`, with the sign of `x`; there is none for an
infinite `x` or for a `y` of zero. -/
def remainderFloat (x y : Float) : Float :=
  match Binary.ofFloat? x, Binary.ofFloat? y with
  | some a, some b => if b.mantissa = 0 then 0 / 0 else (a.remainder b).toFloat
  | some _, none => if y.isNaN then 0 / 0 else x
  | none, _ => 0 / 0

/-- The nearest whole number from 0 to 255, and 0 for what is no number. -/
def byteOfFloat32 (x : Float32) : Nat :=
  match Binary.ofFloat32? x with
  | some b => if b.negative then 0 else min b.roundSize 255
  | none => if x > 0 then 255 else 0

end GradientFallback
