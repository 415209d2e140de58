import GradientFallback.Stylesheet.Item
import GradientFallback.Token.Lexer

/-! # Reading stylesheets

The items of a stylesheet are put together to a tree with a stack of the blocks that are open.  At
the end of the items all blocks are closed.
-/
namespace GradientFallback

/-- A block that is open: how it started and the nodes in front of it. -/
structure OpenBlock where
  opening : Opening
  nodesBefore : Array Node

namespace Stylesheet

/-- Closes all blocks, the innermost with the blanks `after` in front of its brace. -/
def closeAll (origin : Option String) (after : String) : List OpenBlock → Array Node → Stylesheet
  | [], nodes => ⟨nodes.toList, after, origin⟩
  | b :: outer, nodes =>
    closeAll origin "" outer (b.nodesBefore.push (b.opening.node nodes.toList after))

/-- Puts items together inside the blocks that are open, the innermost first. -/
def assemble (origin : Option String) : List OpenBlock → Array Node → List Item → Stylesheet
  | outer, nodes, [] => closeAll origin "" outer nodes
  | outer, nodes, .ending after :: _ => closeAll origin after outer nodes
  | outer, nodes, .leaf n :: items => assemble origin outer (nodes.push n) items
  | outer, nodes, .opening o :: items => assemble origin (⟨o, nodes⟩ :: outer) #[] items
  | b :: outer, nodes, .closing after :: items =>
    assemble origin outer (b.nodesBefore.push (b.opening.node nodes.toList after)) items
  | [], nodes, .closing _ :: items => assemble origin [] nodes items
  | outer, nodes, .stray :: items => assemble origin outer nodes items

def ofItems (origin : Option String) (items : List Item) : Stylesheet := assemble origin [] #[] items

end Stylesheet

/-- How a stylesheet is read. -/
structure ParseConfig where
  /-- The place where the text starts. -/
  start : Location
  /-- Where the text was found. -/
  origin : Option String
  /-- Whether what is broken is passed. -/
  lenient : Bool

namespace ParseConfig

/-- Strict reading of a text on its own. -/
def strict : ParseConfig := ⟨.origin, none, false⟩

end ParseConfig

namespace Stylesheet

/-- Reads a stylesheet from tokens that end at `finish`. -/
def ofTokens (config : ParseConfig) (finish : Location) (ts : List Token) :
    Except ParseError Stylesheet :=
  (Item.readAll config.lenient finish ts).map fun items => ofItems config.origin (Piece.values items)

/-- Reads a stylesheet from a text with one kind of line end. -/
def ofChars (config : ParseConfig) (cs : List Char) : Except ParseError Stylesheet :=
  ofTokens config (config.start.advance cs) (Token.lex config.start cs)

/-- Reads a stylesheet. -/
def parse (config : ParseConfig) (text : String) : Except ParseError Stylesheet :=
  ofChars config (unifyLineEnds text.toList)

/-- Reads a stylesheet from the position of a source on.  Places are counted from there, but the
texts that the tree keeps are taken from the whole source at those same places. -/
def ofSource (config : ParseConfig) (s : Source) : Except ParseError Stylesheet :=
  ofTokens config (config.start.advance s.rest)
    (Token.respell s.chars (Token.lex config.start s.rest))

end Stylesheet
end GradientFallback
