import GradientFallback.Text.Segment
import GradientFallback.Text.Letters

/-! # Options

Options choose which gradients get a filter and whether warnings are given.  They are written as a
strict object of named booleans, or as a list of booleans in the order of the fields.  A field that
is left out has its default; an unknown or repeated one is an error.
-/
namespace GradientFallback

structure Options where
  /-- Whether a gradient whose direction is approximated gets a filter. -/
  angleFallback : Bool
  /-- Whether a gradient with more than two colors gets none. -/
  skipMultiColor : Bool
  /-- Whether no warnings are given. -/
  skipWarnings : Bool
  deriving DecidableEq

namespace Options

def default : Options := ⟨true, false, false⟩

/-- What an options text is made of. -/
inductive Sign where
  | leftBrace
  | rightBrace
  | leftBracket
  | rightBracket
  | colon
  | comma
  | boolean (value : Bool)
  | name (text : List Char)
  | gap
  deriving DecidableEq

/-- One character of a name; an escape is read only if it gives a code point. -/
def nameStep : Step Char Char
  | '\\' :: 'u' :: cs =>
    let digits := cs.take 4
    if digits.length = 4 ∧ digits.all isHexDigit then
      some (Char.ofNat (digitsValue 16 digits), 6)
    else none
  | '\\' :: _ => none
  | '"' :: _ => none
  | c :: _ => some (c, 1)
  | [] => none

/-- A name whose opening quote has been read, with its closing quote. -/
def nameSign? (cs : List Char) : Option (Sign × Nat) :=
  let pieces := segment nameStep cs
  match cs.drop (Piece.width pieces) with
  | '"' :: _ => some (.name (Piece.values pieces), Piece.width pieces + 2)
  | _ => none

def isGap (c : Char) : Bool := c == ' ' || c == '\t' || c == '\n' || c == '\r'

def sign? : Step Char Sign
  | '\x7b' :: _ => some (.leftBrace, 1)
  | '\x7d' :: _ => some (.rightBrace, 1)
  | '[' :: _ => some (.leftBracket, 1)
  | ']' :: _ => some (.rightBracket, 1)
  | ':' :: _ => some (.colon, 1)
  | ',' :: _ => some (.comma, 1)
  | 't' :: 'r' :: 'u' :: 'e' :: _ => some (.boolean true, 4)
  | 'f' :: 'a' :: 'l' :: 's' :: 'e' :: _ => some (.boolean false, 5)
  | '"' :: cs => nameSign? cs
  | c :: _ => if isGap c then some (.gap, 1) else none
  | [] => none

/-- The signs of a text without its gaps, if it is made of signs alone. -/
def signs? (cs : List Char) : Option (List Sign) :=
  let pieces := segment sign? cs
  if Piece.width pieces = cs.length then
    some ((Piece.values pieces).filter fun s => s ≠ .gap)
  else none

/-- The members of an object behind its opening brace, of which there is at least one. -/
def members? : List Sign → Option (List (List Char × Bool))
  | [.name n, .colon, .boolean b, .rightBrace] => some [(n, b)]
  | .name n :: .colon :: .boolean b :: .comma :: rest => (members? rest).map ((n, b) :: ·)
  | _ => none

/-- The elements of a list behind its opening bracket, of which there is at least one. -/
def elements? : List Sign → Option (List Bool)
  | [.boolean b, .rightBracket] => some [b]
  | .boolean b :: .comma :: rest => (elements? rest).map (b :: ·)
  | _ => none

def fieldNames : List (List Char) :=
  ["angleFallback".toList, "skipMultiColor".toList, "skipWarnings".toList]

/-- The options with the given members, each known and none given twice. -/
def ofMembers? (members : List (List Char × Bool)) : Option Options :=
  let names := members.map Prod.fst
  let value (name : String) (usual : Bool) : Bool := (members.lookup name.toList).getD usual
  if names.all fieldNames.contains ∧ names.Nodup then
    some ⟨value "angleFallback" default.angleFallback,
      value "skipMultiColor" default.skipMultiColor, value "skipWarnings" default.skipWarnings⟩
  else none

/-- The options with the given values for the first fields. -/
def ofElements? : List Bool → Option Options
  | [] => some default
  | [a] => some { default with angleFallback := a }
  | [a, b] => some { default with angleFallback := a, skipMultiColor := b }
  | [a, b, c] => some ⟨a, b, c⟩
  | _ => none

/-- Reads options from all of a text. -/
def parse? (text : String) : Option Options :=
  match signs? text.toList with
  | some [.leftBrace, .rightBrace] => some default
  | some [.leftBracket, .rightBracket] => some default
  | some (.leftBrace :: rest) => (members? rest).bind ofMembers?
  | some (.leftBracket :: rest) => (elements? rest).bind ofElements?
  | _ => none

end Options
end GradientFallback
