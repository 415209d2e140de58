import GradientFallback.Text.Blank
import GradientFallback.Text.Segment
import GradientFallback.Token.Basic
import GradientFallback.Number.Decimal

/-! # Reading one token

`Scan.token` reads the token at the front of a text: its kind and the number of characters it is
written with.  Escapes, names, numerals, strings, addresses and comments are read by functions of
their own; each reads as much as it can.
-/
namespace GradientFallback
namespace Scan

/-- The number of characters in front of `cs` with `p`. -/
def runLength (p : Char → Bool) (cs : List Char) : Nat := (cs.takeWhile p).length

/-! ## Escapes and names -/

/-- The character with the given code point; for zero, a surrogate or a number above all code
points the replacement character. -/
def charOfCode (n : Nat) : Char := if n ≠ 0 ∧ n.isValidChar then Char.ofNat n else '\ufffd'

/-- Up to six hexadecimal digits and one blank after them, as they follow the backslash. -/
def hexEscape (cs : List Char) : Char × Nat :=
  let digits := (cs.take 6).takeWhile isHexDigit
  let blank := ((cs.drop digits.length).take 1).takeWhile isBlank
  (charOfCode (digitsValue 16 digits), 1 + digits.length + blank.length)

/-- A backslash and what it stands for; in front of a line end or at the end of the text a
backslash escapes nothing. -/
def escape? : Step Char Char
  | '\\' :: c :: cs =>
    if c = '\n' then none
    else if isHexDigit c then some (hexEscape (c :: cs))
    else some (c, 2)
  | _ => none

def isNameStart (c : Char) : Bool := isLetter c || c.toNat ≥ 0x80 || c == '_'

def isNameChar (c : Char) : Bool := isNameStart c || isDigit c || c == '-'

/-- An escape, or one character that is taken as it is. -/
def escapeOr (p : Char → Bool) : Step Char Char := fun cs =>
  match escape? cs with
  | some piece => some piece
  | none =>
    match cs with
    | c :: _ => if p c then some (c, 1) else none
    | [] => none

/-- A run of name characters and escapes. -/
def name (cs : List Char) : String × Nat :=
  let pieces := segment (escapeOr isNameChar) cs
  (String.ofList (Piece.values pieces), Piece.width pieces)

/-- Whether a name could start here, were it not for a hyphen. -/
def startsPlainName (cs : List Char) : Bool :=
  (escape? cs).isSome || cs.head?.any isNameStart

/-- Whether an identifier starts here. -/
def startsIdent : List Char → Bool
  | '-' :: cs => cs.head? == some '-' || startsPlainName cs
  | cs => startsPlainName cs

/-! ## Numbers -/

def signPart (cs : List Char) : List Char := (cs.take 1).filter fun c => c == '+' || c == '-'

def digitsPart (cs : List Char) : List Char := cs.takeWhile isDigit

/-- A point with digits after it. -/
def fractionPart : List Char → List Char
  | '.' :: cs => if digitsPart cs = [] then [] else '.' :: digitsPart cs
  | _ => []

/-- The letter e with a whole number after it. -/
def exponentPart : List Char → List Char
  | e :: cs =>
    let sign := signPart cs
    let digits := digitsPart (cs.drop sign.length)
    if e.toLower = 'e' ∧ digits ≠ [] then e :: (sign ++ digits) else []
  | [] => []

/-- Reads with `p` and then, behind what `p` has read, with `q`. -/
def andThen (p q : List Char → List Char) (cs : List Char) : List Char :=
  p cs ++ q (cs.drop (p cs).length)

/-- The longest numeral at the front of the text. -/
def numeral : List Char → List Char :=
  andThen signPart (andThen digitsPart (andThen fractionPart exponentPart))

/-- Whether digits, or a point and digits, come next. -/
def startsUnsigned (cs : List Char) : Bool :=
  digitsPart cs != [] || fractionPart cs != []

/-- Whether a number starts here, with or without a sign. -/
def startsNumber (cs : List Char) : Bool := startsUnsigned (cs.drop (signPart cs).length)

/-- The value that a numeral writes, and zero for what is none. -/
def numeralValue (cs : List Char) : Float := ((Numeral.read? cs).map Numeral.toFloat).getD 0

/-- A number with the unit or the percent sign that follows it at once. -/
def numeric (cs : List Char) : TokenKind × Nat :=
  let digits := numeral cs
  let value := numeralValue digits
  let after := cs.drop digits.length
  if startsIdent after then
    let (unit, width) := name after
    (.dimension value unit, digits.length + width)
  else if after.head? = some '%' then (.percentage value, digits.length + 1)
  else (.number value, digits.length)

/-! ## Strings, addresses and comments -/

/-- One character of a string that ends with `quote`; an escaped line end stands for nothing. -/
def stringStep (quote : Char) : Step Char (Option Char) := fun cs =>
  match cs with
  | '\\' :: '\n' :: _ => some (none, 2)
  | _ => (escapeOr (fun c => c != quote && c != '\n') cs).map fun piece => (some piece.1, piece.2)

/-- A string whose opening quote has been read, and the width of it all.  The end of the text closes
it; a line end breaks it off. -/
def string (quote : Char) (cs : List Char) : TokenKind × Nat :=
  let pieces := segment (stringStep quote) cs
  let content := String.ofList ((Piece.values pieces).filterMap id)
  let width := Piece.width pieces
  match cs.drop width with
  | [] => (.quotedString content, 1 + width)
  | c :: _ => if c = quote then (.quotedString content, 2 + width) else (.badString content, 1 + width)

/-- A character of an address without quotes. -/
def isUrlChar (c : Char) : Bool := !(isBlank c || c == ')' || c == '"' || c == '\'' || c == '(')

/-- What is passed of a broken address: all up to the next closing parenthesis, and that too. -/
def brokenUrlWidth (cs : List Char) : Nat :=
  let width := Piece.width (segment (escapeOr (fun c => c != ')')) cs)
  width + ((cs.drop width).take 1).length

/-- An address without quotes whose opening parenthesis has been read, and its width from there. -/
def url (cs : List Char) : TokenKind × Nat :=
  let indent := runLength isBlank cs
  let pieces := segment (escapeOr isUrlChar) (cs.drop indent)
  let address := String.ofList (Piece.values pieces)
  let width := indent + Piece.width pieces
  let gap := runLength isBlank (cs.drop width)
  match cs.drop (width + gap) with
  | [] => (.url address, width + gap)
  | c :: after =>
    if c = ')' then (.url address, width + gap + 1)
    else (.badUrl address, width + gap + brokenUrlWidth (c :: after))

/-- What stands in a comment that has been opened. -/
def commentContent : List Char → List Char
  | '*' :: '/' :: _ => []
  | c :: cs => c :: commentContent cs
  | [] => []

/-- A comment whose opening has been read, and the width of it all. -/
def comment (cs : List Char) : TokenKind × Nat :=
  let content := commentContent cs
  (.comment (String.ofList content),
    2 + content.length + ((cs.drop content.length).take 2).length)

/-! ## All tokens -/

/-- Whether an address without quotes follows the name and the parenthesis. -/
def startsUrl (cs : List Char) : Bool :=
  !((cs.dropWhile isBlank).head?.any fun c => c == '"' || c == '\'')

/-- A name, with the parenthesis that makes it a function or the start of an address. -/
def identLike (cs : List Char) : TokenKind × Nat :=
  let (value, width) := name cs
  match cs.drop width with
  | '(' :: after =>
    if sameLetters value "url" ∧ startsUrl after then
      let (kind, more) := url after
      (kind, width + 1 + more)
    else (.function value, width + 1)
  | _ => (.ident value, width)

/-- A number sign, with the name that may follow it at once. -/
def hash (cs : List Char) : TokenKind × Nat :=
  let (value, width) := name cs
  if width = 0 then (.delim '#', 1)
  else if startsIdent cs then (.idHash value, 1 + width)
  else (.hash value, 1 + width)

/-- An at sign, with the identifier that may follow it at once. -/
def atSign (cs : List Char) : TokenKind × Nat :=
  if startsIdent cs then
    let (value, width) := name cs
    (.atKeyword value, 1 + width)
  else (.delim '@', 1)

/-- The characters that are a token of their own. -/
def punctuation? : Char → Option TokenKind
  | '(' => some .leftParen
  | ')' => some .rightParen
  | '[' => some .leftBracket
  | ']' => some .rightBracket
  | '\x7b' => some .leftBrace
  | '\x7d' => some .rightBrace
  | ',' => some .comma
  | ':' => some .colon
  | ';' => some .semicolon
  | _ => none

/-- A token that starts with a character that is no punctuation. -/
def other (c : Char) (cs : List Char) : TokenKind × Nat :=
  if isBlank c then (.whitespace, 1 + runLength isBlank cs)
  else if c = '"' ∨ c = '\'' then string c cs
  else if c = '#' then hash cs
  else if c = '@' then atSign cs
  else if startsNumber (c :: cs) then numeric (c :: cs)
  else if c = '-' ∧ cs.take 2 = ['-', '>'] then (.commentClose, 3)
  else if c = '<' ∧ cs.take 3 = ['!', '-', '-'] then (.commentOpen, 4)
  else if startsIdent (c :: cs) then identLike (c :: cs)
  else (.delim c, 1)

/-- The token at the front of the text; there is none only at its end. -/
def token : Step Char TokenKind
  | [] => none
  | '/' :: '*' :: cs => some (comment cs)
  | c :: cs =>
    match punctuation? c with
    | some kind => some (kind, 1)
    | none => some (other c cs)

end Scan
end GradientFallback
