import GradientFallback.Stylesheet.Basic
import GradientFallback.Stylesheet.Error
import GradientFallback.Text.Blank
import GradientFallback.Text.Segment
import GradientFallback.Text.Letters
import GradientFallback.Token.Span

/-! # The items of a stylesheet

The tokens of a stylesheet fall into items: a whole node without a block, the opening of a block
with all that stands in front of its brace, the closing of a block, a sign without meaning, and the
blanks at the end.  Each item starts with the blanks in front of it.  Which items there are depends
on the tokens before only by whether a block is open.
-/
namespace GradientFallback

/-- The start of a block. -/
inductive Opening where
  | rule (head : RuleHead)
  | atRule (head : AtRuleHead)

/-- The node that a block with this opening makes. -/
def Opening.node : Opening → List Node → String → Node
  | rule head, nodes, after => .rule head nodes after
  | atRule head, nodes, after => .atRule head nodes after

inductive Item where
  | leaf (n : Node)
  | opening (o : Opening)
  /-- A closing brace, with the blanks in front of it. -/
  | closing (after : String)
  /-- A sign or a broken construct that leaves no trace in the tree. -/
  | stray
  /-- Blanks with nothing behind them. -/
  | ending (after : String)

namespace Item

/-- The number of open blocks behind an item. -/
def depth (d : Nat) : Item → Nat
  | opening _ => d + 1
  | closing _ => d - 1
  | _ => d

def sourceText (ts : List Token) : String := String.ofList (Token.source ts)

/-- The kinds that end what may be the head of a block. -/
def endsHead : TokenKind → Bool
  | .leftBrace => true
  | .semicolon => true
  | .rightBrace => true
  | _ => false

def endsProperty : TokenKind → Bool
  | .colon => true
  | .semicolon => true
  | .rightBrace => true
  | _ => false

def endsValue : TokenKind → Bool
  | .semicolon => true
  | .rightBrace => true
  | _ => false

/-- The tokens up to the last one that is no trivia. -/
def significant (ts : List Token) : List Token := dropTrailing Token.isTrivia ts

/-- An at-rule behind its keyword: the opening of its block, or a statement.  What ends a statement
is read only if it is a semicolon. -/
def atRule (before name : String) (location : Location) (ts : List Token) : Item × Nat :=
  let (run, rest) := Token.spanUntil endsHead 0 ts
  let text := Token.source run
  let afterName := text.takeWhile isBlank
  let params := trim text
  let between := trailing isBlank (trimStart text)
  let head : AtRuleHead := ⟨name, String.ofList params, location, before, String.ofList afterName,
    String.ofList between⟩
  match Token.headKind rest with
  | .leftBrace => (.opening (.atRule head), run.length + 1)
  | .semicolon => (.leaf (.statement head true), run.length + 1)
  | _ => (.leaf (.statement head false), run.length)

/-- The opening of a rule, from the tokens in front of its brace. -/
def rule (before : String) (location : Location) (run : List Token) : Item × Nat :=
  let text := Token.source run
  (.opening (.rule ⟨String.ofList (trimEnd text), location, before,
    String.ofList (trailing isBlank text)⟩), run.length + 1)

/-- A value without the mark of importance at its end, and the mark with the blanks in front. -/
def splitMarker (value : List Char) : List Char × Option (List Char) :=
  let behind := (value.reverse.takeWhile (· != '!')).reverse
  let upTo := value.take (value.length - behind.length)
  if upTo ≠ [] ∧ sameLetters (String.ofList (trim behind)) "important" then
    let kept := trimEnd upTo.dropLast
    (kept, some (value.drop kept.length))
  else (value, none)

def declarationEnd (rest : List Token) : DeclarationEnd :=
  match Token.headKind rest with
  | .semicolon => .semicolon
  | .rightBrace => .rightBrace
  | _ => .endOfText

/-- A declaration whose property has been read, from the tokens behind the colon.  Trivia behind a
value without a semicolon is left to the block. -/
def declarationValue (property before between : String) (location finish : Location)
    (ts : List Token) : Except ParseError (Item × Nat) :=
  let gap := ts.takeWhile Token.isTrivia
  let (run, rest) := Token.spanUntil endsValue 0 (ts.drop gap.length)
  let written := significant run
  let (value, marker) := splitMarker (Token.source written)
  if value = [] ∧ property.toList.take 2 ≠ ['-', '-'] then
    .error ⟨.missingValue, Token.start finish rest⟩
  else
    let semicolon := Token.headKind rest = .semicolon
    let tail := if semicolon then run.drop written.length else []
    let d : Declaration := ⟨property, String.ofList value, marker.isSome, location, before,
      between ++ sourceText gap, marker.map String.ofList, sourceText tail, semicolon⟩
    .ok (.leaf (.declaration d),
      gap.length + (if semicolon then run.length + 1 else written.length))

/-- A declaration. -/
def declaration (before : String) (location finish : Location) (ts : List Token) :
    Except ParseError (Item × Nat) :=
  let (run, rest) := Token.spanUntil endsProperty 0 ts
  match rest with
  | ⟨.colon, _, colon⟩ :: more =>
    let written := significant run
    if written = [] then .error ⟨.missingProperty, location⟩
    else
      let between := sourceText (run.drop written.length) ++ String.ofList colon
      (declarationValue (sourceText written) before between location finish more).map
        fun r => (r.1, run.length + 1 + r.2)
  | _ => .error ⟨.missingColon (declarationEnd rest), Token.start finish rest⟩

/-- The item that starts with the token `t`, which is no whitespace. -/
def readAt (nested : Bool) (finish : Location) (before : String) (t : Token) (ts : List Token) :
    Except ParseError (Item × Nat) :=
  match t.kind with
  | .rightBrace =>
    if nested then .ok (.closing before, 1) else .error ⟨.unexpectedBrace, t.location⟩
  | .semicolon => .ok (.stray, 1)
  | .commentOpen => .ok (.stray, 1)
  | .commentClose => .ok (.stray, 1)
  | .comment content => .ok (.leaf (.comment ⟨content, t.location, before⟩), 1)
  | .atKeyword name =>
    let (item, width) := atRule before name t.location ts
    .ok (item, width + 1)
  | _ =>
    let (run, rest) := Token.spanUntil endsHead 0 (t :: ts)
    if Token.headKind rest = .leftBrace then .ok (rule before t.location run)
    else if nested then declaration before t.location finish (t :: ts)
    else .error ⟨.declarationOutsideRule, t.location⟩

/-- The number of tokens of a broken construct: up to its semicolon or in front of a closing brace,
and at least one. -/
def brokenWidth (ts : List Token) : Nat :=
  let (run, rest) := Token.spanUntil endsValue 0 ts
  max 1 (run.length + if Token.headKind rest = .semicolon then 1 else 0)

/-- The item at the front of the tokens, and how many of them it takes.  A lenient reader passes
what is broken. -/
def read (lenient nested : Bool) (finish : Location) (ts : List Token) :
    Except ParseError (Item × Nat) :=
  let blanks := ts.takeWhile Token.isWhitespace
  match ts.drop blanks.length with
  | [] => .ok (.ending (sourceText blanks), blanks.length)
  | t :: more =>
    match readAt nested finish (sourceText blanks) t more with
    | .ok (item, width) => .ok (item, blanks.length + width)
    | .error e =>
      if lenient then .ok (.stray, blanks.length + brokenWidth (t :: more)) else .error e

/-- Reads items after passing `pending` tokens, with `d` blocks open.  A lenient reader takes the
end of the text for the end of all open blocks. -/
def readFrom (lenient : Bool) (finish : Location) :
    Nat → Nat → List Token → Except ParseError (List (Piece Token Item))
  | _, d, [] => if d = 0 ∨ lenient then .ok [] else .error ⟨.unclosedBlock, finish⟩
  | pending + 1, d, _ :: ts => readFrom lenient finish pending d ts
  | 0, d, t :: ts =>
    match read lenient (d != 0) finish (t :: ts) with
    | .error e => .error e
    | .ok (item, width) =>
      (readFrom lenient finish (width - 1) (item.depth d) ts).map
        fun items => ⟨item, t :: ts.take (width - 1)⟩ :: items

/-- All items of a token list, or the first thing that is wrong with it. -/
def readAll (lenient : Bool) (finish : Location) (ts : List Token) :
    Except ParseError (List (Piece Token Item)) := readFrom lenient finish 0 0 ts

end Item
end GradientFallback
