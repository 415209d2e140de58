import GradientFallback.Proofs.Token.Cutting
import GradientFallback.Stylesheet.Item

/-! # The layout of a stylesheet

The tokens of a stylesheet or of a block are laid out in comments, statements, declarations and
blocks, each with the blanks in front of it.  Between them stand signs that say nothing.  A layout
tells which tokens belong to which construct, and which nodes they make; it is lawful if every
construct is written as the grammar of stylesheets wants it.
-/
namespace GradientFallback

namespace TokenKind

/-- A semicolon or a comment delimiter of markup; it says nothing where a node could start. -/
def isSign : TokenKind → Bool
  | semicolon => true
  | commentOpen => true
  | commentClose => true
  | _ => false

/-- The kinds that start a style rule or a declaration where a node could start. -/
def startsPlain : TokenKind → Bool
  | whitespace => false
  | comment _ => false
  | semicolon => false
  | commentOpen => false
  | commentClose => false
  | rightBrace => false
  | atKeyword _ => false
  | _ => true

end TokenKind

/-- The head of an at-rule with the tokens `run` behind its keyword. -/
def AtRuleHead.ofRun (before name : String) (location : Location) (run : List Token) : AtRuleHead :=
  let text := Token.source run
  ⟨name, String.ofList (trim text), location, before, String.ofList (text.takeWhile isBlank),
    String.ofList (trailing isBlank (trimStart text))⟩

/-- The head of a style rule with the tokens `run` in front of its brace. -/
def RuleHead.ofRun (before : String) (location : Location) (run : List Token) : RuleHead :=
  let text := Token.source run
  ⟨String.ofList (trimEnd text), location, before, String.ofList (trailing isBlank text)⟩

/-- The parts of a declaration up to the last token of its value. -/
structure DeclarationParts where
  name : List Token
  /-- Trivia between the name and the colon. -/
  nameGap : List Token
  colon : Token
  /-- Trivia between the colon and the value. -/
  gap : List Token
  value : List Token

namespace DeclarationParts

def tokens (p : DeclarationParts) : List Token :=
  p.name ++ p.nameGap ++ p.colon :: p.gap ++ p.value

/-- The value without its mark of importance, and the mark. -/
def split (p : DeclarationParts) : List Char × Option (List Char) :=
  Item.splitMarker (Token.source p.value)

/-- The declaration that the parts make, with `after` in front of what ends it. -/
def declaration (p : DeclarationParts) (before : String) (after : List Token) (semicolon : Bool) :
    Declaration :=
  ⟨Item.sourceText p.name, String.ofList p.split.1, p.split.2.isSome,
    Token.start .origin p.name, before,
    String.ofList (Token.source p.nameGap ++ p.colon.text ++ Token.source p.gap),
    p.split.2.map String.ofList, Item.sourceText after, semicolon⟩

/-- Name and value start and end with what they say, trivia stands beside the colon, no brace opens
a block, and only a custom property has no value. -/
structure Lawful (p : DeclarationParts) : Prop where
  name_ne_nil : p.name ≠ []
  starts : (Token.headKind p.name).startsPlain = true
  name_last : ∀ t ∈ p.name.getLast?, t.isTrivia = false
  nameGap : Token.AllTrivia p.nameGap
  colon : p.colon.kind = .colon
  gap : Token.AllTrivia p.gap
  value_first : ∀ t ∈ p.value.head?, t.isTrivia = false
  value_last : ∀ t ∈ p.value.getLast?, t.isTrivia = false
  name_passes : Token.Passes Item.endsProperty 0 p.name
  name_closed : Token.depthBehind 0 p.name = 0
  passes : Token.Passes Item.endsHead 0 p.tokens
  closed : Token.depthBehind 0 p.tokens = 0
  has_value : p.split.1 ≠ [] ∨ ∃ cs, Token.source p.name = '-' :: '-' :: cs

end DeclarationParts

/-- The tokens of a node without a block, in front of the tokens `rest` of the same block. -/
inductive Leaf (nested : Bool) (before : String) : List Token → List Token → Node → Prop
  | comment {t : Token} {content : String} {rest : List Token} (kind : t.kind = .comment content) :
      Leaf nested before [t] rest (.comment ⟨content, t.location, before⟩)
  | statement {t semicolon : Token} {name : String} {run rest : List Token}
      (kind : t.kind = .atKeyword name) (passes : Token.Passes Item.endsHead 0 run)
      (closed : Token.depthBehind 0 run = 0) (ends : semicolon.kind = .semicolon) :
      Leaf nested before (t :: run ++ [semicolon]) rest
        (.statement (.ofRun before name t.location run) true)
  /-- The end of the block ends a statement; the end of the text does so even in parentheses. -/
  | lastStatement {t : Token} {name : String} {run : List Token} (kind : t.kind = .atKeyword name)
      (passes : Token.Passes Item.endsHead 0 run)
      (closed : nested = true → Token.depthBehind 0 run = 0) :
      Leaf nested before (t :: run) [] (.statement (.ofRun before name t.location run) false)
  | declaration {p : DeclarationParts} {after rest : List Token} {semicolon : Token}
      (inside : nested = true) (lawful : p.Lawful) (after_trivia : Token.AllTrivia after)
      (after_nil : p.value = [] → after = []) (ends : semicolon.kind = .semicolon) :
      Leaf nested before (p.tokens ++ after ++ [semicolon]) rest
        (.declaration (p.declaration before after true))
  /-- Trivia behind the value of the last declaration belongs to the block, unless there is no
  value in front of it. -/
  | lastDeclaration {p : DeclarationParts} {rest : List Token} (inside : nested = true)
      (lawful : p.Lawful) (rest_trivia : Token.AllTrivia rest)
      (rest_nil : p.value = [] → rest = []) :
      Leaf nested before p.tokens rest (.declaration (p.declaration before [] false))

/-- The tokens of the start of a block, up to its brace. -/
inductive Opens (before : String) : List Token → Opening → Prop
  | rule {run : List Token} {brace : Token} (ends : brace.kind = .leftBrace)
      (starts : (Token.headKind (run ++ [brace])).startsPlain = true)
      (passes : Token.Passes Item.endsHead 0 run) (closed : Token.depthBehind 0 run = 0) :
      Opens before (run ++ [brace])
        (.rule (.ofRun before (Token.start .origin (run ++ [brace])) run))
  | atRule {t brace : Token} {name : String} {run : List Token} (kind : t.kind = .atKeyword name)
      (passes : Token.Passes Item.endsHead 0 run) (closed : Token.depthBehind 0 run = 0)
      (ends : brace.kind = .leftBrace) :
      Opens before (t :: run ++ [brace]) (.atRule (.ofRun before name t.location run))

/-- How the tokens of a stylesheet, or of a block up to its closing brace, are laid out. -/
inductive Layout where
  | ending (blanks : List Token)
  | sign (blanks : List Token) (t : Token) (rest : Layout)
  | leaf (blanks ts : List Token) (n : Node) (rest : Layout)
  | block (blanks head : List Token) (o : Opening) (inner : Layout) (innerEnd : Token)
      (rest : Layout)

namespace Layout

def tokens : Layout → List Token
  | ending blanks => blanks
  | sign blanks t rest => blanks ++ t :: rest.tokens
  | leaf blanks ts _ rest => blanks ++ ts ++ rest.tokens
  | block blanks head _ inner innerEnd rest =>
    blanks ++ head ++ inner.tokens ++ innerEnd :: rest.tokens

/-- The tokens without the signs that say nothing and the blanks in front of them. -/
def kept : Layout → List Token
  | ending blanks => blanks
  | sign _ _ rest => rest.kept
  | leaf blanks ts _ rest => blanks ++ ts ++ rest.kept
  | block blanks head _ inner innerEnd rest =>
    blanks ++ head ++ inner.kept ++ innerEnd :: rest.kept

/-- The blanks behind the last node. -/
def last : Layout → List Token
  | ending blanks => blanks
  | sign _ _ rest => rest.last
  | leaf _ _ _ rest => rest.last
  | block _ _ _ _ _ rest => rest.last

def after (c : Layout) : String := Item.sourceText c.last

def nodes : Layout → List Node
  | ending _ => []
  | sign _ _ rest => rest.nodes
  | leaf _ _ n rest => n :: rest.nodes
  | block _ _ o inner _ rest => o.node inner.nodes inner.after :: rest.nodes

/-- The token that each node starts with. -/
def starts : Layout → List Token
  | ending _ => []
  | sign _ _ rest => rest.starts
  | leaf _ ts _ rest => ts.take 1 ++ rest.starts
  | block _ head _ inner _ rest => head.take 1 ++ inner.starts ++ rest.starts

/-- Every construct is written as the grammar wants it; inside a block there may be declarations. -/
def Lawful (nested : Bool) : Layout → Prop
  | ending blanks => Token.AllBlank blanks
  | sign blanks t rest => Token.AllBlank blanks ∧ t.kind.isSign = true ∧ rest.Lawful nested
  | leaf blanks ts n rest =>
    Token.AllBlank blanks ∧ Leaf nested (Item.sourceText blanks) ts rest.tokens n ∧
      rest.Lawful nested
  | block blanks head o inner innerEnd rest =>
    Token.AllBlank blanks ∧ Opens (Item.sourceText blanks) head o ∧ inner.Lawful true ∧
      innerEnd.kind = .rightBrace ∧ rest.Lawful nested

end Layout
end GradientFallback
