import GradientFallback.Text.Location
import GradientFallback.Text.Letters
import GradientFallback.Number.Shortest

/-! # Tokens of a stylesheet

A token has a kind, which holds its value with the escapes resolved, the place where it starts and
the characters it is written with.
-/
namespace GradientFallback

inductive TokenKind where
  | atKeyword (name : String)
  | ident (name : String)
  | function (name : String)
  | url (address : String)
  | badUrl (address : String)
  | dimension (value : Float) (unit : String)
  | percentage (value : Float)
  | number (value : Float)
  | quotedString (content : String)
  | badString (content : String)
  | whitespace
  | hash (name : String)
  | idHash (name : String)
  | delim (char : Char)
  | leftBrace
  | rightBrace
  | leftParen
  | rightParen
  | leftBracket
  | rightBracket
  | comma
  | colon
  | semicolon
  | commentOpen
  | commentClose
  | comment (content : String)
  | endOfText
  deriving DecidableEq

namespace TokenKind

def isWhitespace : TokenKind → Bool
  | whitespace => true
  | _ => false

/-- Whitespace and comments, which separate tokens and mean nothing else. -/
def isTrivia : TokenKind → Bool
  | whitespace => true
  | comment _ => true
  | _ => false

/-- A function, a parenthesis or a bracket that waits for its counterpart. -/
def opens : TokenKind → Bool
  | function _ => true
  | leftParen => true
  | leftBracket => true
  | _ => false

/-- A closing parenthesis or bracket. -/
def closes : TokenKind → Bool
  | rightParen => true
  | rightBracket => true
  | _ => false

/-- An identifier with the given name, up to the case of ASCII letters. -/
def isIdentNamed (name : String) : TokenKind → Bool
  | ident n => sameLetters n name
  | _ => false

/-- The token in a normal spelling; whitespace is one space. -/
def display : TokenKind → String
  | atKeyword name => "@" ++ name
  | ident name => name
  | function name => name ++ "("
  | url address => "url(" ++ address ++ ")"
  | badUrl address => address
  | dimension value unit => numberText value ++ unit
  | percentage value => numberText value ++ "%"
  | number value => numberText value
  | quotedString content => "\"" ++ content ++ "\""
  | badString content => content
  | whitespace => " "
  | hash name => "#" ++ name
  | idHash name => "#" ++ name
  | delim char => String.singleton char
  | leftBrace => "\x7b"
  | rightBrace => "\x7d"
  | leftParen => "("
  | rightParen => ")"
  | leftBracket => "["
  | rightBracket => "]"
  | comma => ","
  | colon => ":"
  | semicolon => ";"
  | commentOpen => "<!--"
  | commentClose => "-->"
  | comment content => "/*" ++ content ++ "*/"
  | endOfText => "eof"

end TokenKind

structure Token where
  kind : TokenKind
  location : Location
  text : List Char
  deriving DecidableEq

namespace Token

def isTrivia (t : Token) : Bool := t.kind.isTrivia

def isWhitespace (t : Token) : Bool := t.kind.isWhitespace

/-- The characters that the tokens are written with. -/
def source (ts : List Token) : List Char := ts.flatMap Token.text

/-- The place of the first token, or `finish` if there is none. -/
def start (finish : Location) : List Token → Location
  | [] => finish
  | t :: _ => t.location

/-- The kind of the first token, or the end of the text. -/
def headKind : List Token → TokenKind
  | [] => .endOfText
  | t :: _ => t.kind

end Token
end GradientFallback
