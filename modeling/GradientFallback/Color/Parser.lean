import GradientFallback.Color.Basic
import GradientFallback.Color.Named
import GradientFallback.Number.Decimal
import GradientFallback.Text.Blank
import GradientFallback.Text.Fields
import GradientFallback.Text.Letters

/-! # Reading colors

A color is written with hexadecimal digits, as a function of red, green and blue or of hue,
saturation and lightness, or by its name.  Blanks around it and the case of its letters do not
matter.  Channels outside their range are brought to its nearer end.
-/
namespace GradientFallback

/-- A text that is no color. -/
inductive ColorError where
  | unparseable (text : String)
  deriving DecidableEq

def ColorError.message : ColorError → String
  | unparseable text => "Unable to parse color from string: " ++ text

namespace Color

/-! ## Hexadecimal digits -/

/-- The color of three, four, six or eight hexadecimal digits; a single digit stands for two. -/
def ofHex? (digits : List Char) : Option Color :=
  if digits.all isHexDigit then
    match digits.length with
    | 3 => some (ofPacked (digitsValue 16 (digits.flatMap fun c => [c, c])) 255)
    | 4 =>
      let n := digitsValue 16 (digits.flatMap fun c => [c, c])
      some (ofPacked (n / 256) n)
    | 6 => some (ofPacked (digitsValue 16 digits) 255)
    | 8 =>
      let n := digitsValue 16 digits
      some (ofPacked (n / 256) n)
    | _ => none
  else none

/-! ## Functions -/

/-- Brings a number into the range from zero to `most`. -/
def limit (most x : Float32) : Float32 := if x < 0 then 0 else if x > most then most else x

/-- What is dropped from a channel, in this order. -/
def droppedWords : List (List Char) :=
  ["rgba".toList, "rgb".toList, "hsla".toList, "hsl".toList, ['('], [')'], ['%'], [' ']]

/-- A channel of a color function; a percent sign in it says nothing. -/
def channel? (cs : List Char) : Option Float32 :=
  (Numeral.read? (droppedWords.foldl (fun cs word => without word cs) cs)).map Numeral.toFloat32

/-- An alpha value, as a number or in percent. -/
def alpha? (cs : List Char) : Option Float32 :=
  if cs.getLast? = some '%' then (Numeral.read? cs.dropLast).map fun n => n.toFloat32 / 100
  else (Numeral.read? cs).map Numeral.toFloat32

/-- Three channels and an alpha value from zero to one. -/
structure Arguments where
  first : Float32
  second : Float32
  third : Float32
  alpha : Float32

/-- What separates the arguments of a color function. -/
def separates (c : Char) : Bool := c == ',' || c == '/' || isBlank c

/-- The arguments behind the opening parenthesis of a color function.  Without an alpha value the
color is opaque. -/
def arguments? (cs : List Char) : Option Arguments :=
  if cs.getLast? = some ')' then
    match fieldsOf separates cs.dropLast with
    | [a, b, c] => do
      return ⟨← channel? a, ← channel? b, ← channel? c, 1⟩
    | [a, b, c, d] => do
      let alpha ← alpha? d
      return ⟨← channel? a, ← channel? b, ← channel? c, limit 1 alpha⟩
    | _ => none
  else none

def ofRgb (a : Arguments) : Color :=
  ⟨limit 255 a.first, limit 255 a.second, limit 255 a.third, a.alpha * 255⟩

/-- A hue that has left the turn by less than a turn is brought back. -/
def wrapHue (x : Float32) : Float32 :=
  let x := if x < 0 then x + 1 else x
  if x > 1 then x - 1 else x

/-- One channel of a color of the given hue between two levels. -/
def hueLevel (low high hue : Float32) : Float32 :=
  if 6 * hue < 1 then low + (high - low) * 6 * hue
  else if 2 * hue < 1 then high
  else if 3 * hue < 2 then low + (high - low) * (2 / 3 - hue) * 6
  else low

/-- The least difference from one of a binary number of 32 bits. -/
def unitSpacing : Float32 := Float32.ofScientific 11920929 true 14

/-- A hue of a full turn is a hue of zero. -/
def fullTurn (hue : Float32) : Float32 := if (hue - 360).abs < unitSpacing then 0 else hue

def ofHsl (a : Arguments) : Color :=
  let hue := fullTurn (limit 360 a.first) / 360
  let saturation := limit 100 a.second / 100
  let lightness := limit 100 a.third / 100
  let alpha := a.alpha * 255
  if saturation == 0 then
    let gray := limit 255 (255 * lightness)
    ⟨gray, gray, gray, alpha⟩
  else
    let high :=
      if lightness < Float32.ofScientific 5 true 1 then lightness * (1 + saturation)
      else lightness + saturation - lightness * saturation
    let low := 2 * lightness - high
    let level (turn : Float32) : Float32 := limit 255 (hueLevel low high (wrapHue turn) * 255)
    ⟨level (hue + 1 / 3), level hue, level (hue - 1 / 3), alpha⟩

/-! ## All notations -/

/-- The text behind one of the words in front of it. -/
def behind? (words : List String) (cs : List Char) : Option (List Char) :=
  (words.find? fun w => w.toList.isPrefixOf cs).map fun w => cs.drop w.length

def ofName? (cs : List Char) : Option Color :=
  if String.ofList cs = "transparent" then some ⟨0, 0, 0, 0⟩
  else (namedColors.lookup (String.ofList cs)).map fun rgb => ofPacked rgb 255

/-- The color that a text without capitals and without blanks around it writes. -/
def read? (cs : List Char) : Option Color :=
  match cs with
  | '#' :: digits => ofHex? digits
  | _ =>
    match behind? ["rgb(", "rgba("] cs with
    | some arguments => (arguments? arguments).map ofRgb
    | none =>
      match behind? ["hsl(", "hsla("] cs with
      | some arguments => (arguments? arguments).map ofHsl
      | none => ofName? cs

def parse (text : String) : Except ColorError Color :=
  match read? ((trim text.toList).map Char.toLower) with
  | some c => .ok c
  | none => .error (.unparseable text)

end Color
end GradientFallback
