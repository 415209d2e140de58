import GradientFallback.Number.Binary

/-! # Colors

A color has a red, a green, a blue and an alpha channel from 0 to 255, as binary numbers of 32
bits.  A legacy filter writes it as four bytes in hexadecimal, alpha first.
-/
namespace GradientFallback

structure Color where
  red : Float32
  green : Float32
  blue : Float32
  alpha : Float32
  deriving DecidableEq

namespace Color

/-- The color of three bytes packed in one number and an alpha byte. -/
def ofPacked (rgb alpha : Nat) : Color :=
  let byte (n : Nat) : Float32 := (UInt8.ofNat n).toFloat32
  ⟨byte (rgb / 65536), byte (rgb / 256), byte rgb, byte alpha⟩

/-- Two hexadecimal digits. -/
def hexByte (n : Nat) : List Char := [Nat.digitChar (n / 16 % 16), Nat.digitChar (n % 16)]

/-- The color as a legacy filter writes it, each channel rounded to a byte. -/
def argbText (c : Color) : String :=
  String.ofList ('#' :: ([c.alpha, c.red, c.green, c.blue].flatMap fun x =>
    hexByte (byteOfFloat32 x)))

end Color
end GradientFallback
