import GradientFallback.Text.Source
import GradientFallback.Token.Scan

/-! # All tokens of a text

The tokens of a text follow one another without a gap; each starts where the characters before it
end.  The token that stands for the end of the text has no characters.
-/
namespace GradientFallback
namespace Token

/-- Gives each piece its place, counted from `start`. -/
def place (start : Location) : List (Piece Char TokenKind) → List Token
  | [] => []
  | p :: ps => ⟨p.value, start, p.text⟩ :: place (start.advance p.text) ps

/-- The tokens of a text that starts at `start`, without the one for its end. -/
def lex (start : Location) (cs : List Char) : List Token := place start (segment Scan.token cs)

/-- The token that stands for the end of the text. -/
def atEnd (finish : Location) : Token := ⟨.endOfText, finish, []⟩

/-- The tokens of a text and the one for its end. -/
def all (start : Location) (cs : List Char) : List Token :=
  lex start cs ++ [atEnd (start.advance cs)]

/-- Gives the tokens, one after the other, the characters of another text. -/
def respell : List Char → List Token → List Token
  | _, [] => []
  | cs, t :: ts =>
    { t with text := cs.take t.text.length } :: respell (cs.drop t.text.length) ts

end Token
end GradientFallback
