import GradientFallback.Text.Location

/-! # Stylesheets

A stylesheet is a tree of rules, at-rules, declarations and comments.  Every node keeps the texts
that stand around its parts, so that it can be written as it was read.
-/
namespace GradientFallback

/-- What stands in front of the block of a style rule. -/
structure RuleHead where
  selector : String
  location : Location
  /-- Blanks in front of the selector. -/
  before : String
  /-- Blanks between the selector and the brace. -/
  between : String
  deriving DecidableEq

/-- An at-rule up to its block or its semicolon. -/
structure AtRuleHead where
  /-- The name without the at sign. -/
  name : String
  params : String
  location : Location
  /-- Blanks in front of the at sign. -/
  before : String
  /-- Blanks between the name and the parameters. -/
  afterName : String
  /-- Blanks behind the parameters. -/
  between : String
  deriving DecidableEq

structure Declaration where
  property : String
  /-- The value without the mark of importance. -/
  value : String
  important : Bool
  location : Location
  /-- Blanks in front of the property. -/
  before : String
  /-- All that stands between the property and the value, with the colon. -/
  between : String
  /-- The mark of importance as written, with the blanks in front of it. -/
  marker : Option String
  /-- What stands between the value and the semicolon. -/
  after : String
  /-- Whether a semicolon ends the declaration. -/
  semicolon : Bool
  deriving DecidableEq

structure Comment where
  /-- What stands between the comment signs. -/
  content : String
  location : Location
  /-- Blanks in front of the comment. -/
  before : String
  deriving DecidableEq

inductive Node where
  /-- A style rule with the nodes of its block and the blanks in front of the closing brace. -/
  | rule (head : RuleHead) (nodes : List Node) (after : String)
  /-- An at-rule with a block. -/
  | atRule (head : AtRuleHead) (nodes : List Node) (after : String)
  /-- An at-rule without a block, and whether a semicolon ends it. -/
  | statement (head : AtRuleHead) (semicolon : Bool)
  | declaration (d : Declaration)
  | comment (c : Comment)

/-- A style rule. -/
structure Rule where
  head : RuleHead
  nodes : List Node
  after : String

structure Stylesheet where
  nodes : List Node
  /-- Blanks behind the last node. -/
  after : String
  /-- Where the stylesheet was found. -/
  origin : Option String

namespace Declaration

/-- A declaration as it is made by hand, in the usual spelling. -/
def make (property value : String) : Declaration :=
  ⟨property, value, false, .origin, "", ": ", none, "", true⟩

/-- The declaration with another property and value, and all else as it is. -/
def withContent (d : Declaration) (property value : String) : Declaration :=
  { d with property := property, value := value }

end Declaration

namespace Node

def ofRule (r : Rule) : Node := .rule r.head r.nodes r.after

def declaration? : Node → Option Declaration
  | declaration d => some d
  | _ => none

def location : Node → Location
  | rule head _ _ => head.location
  | atRule head _ _ => head.location
  | statement head _ => head.location
  | declaration d => d.location
  | comment c => c.location

end Node

namespace Rule

/-- An empty rule as it is made by hand, in the usual spelling. -/
def make (selector : String) : Rule := ⟨⟨selector, .origin, "", " "⟩, [], "\n"⟩

/-- The declarations that stand in the rule itself. -/
def declarations (r : Rule) : List Declaration := r.nodes.filterMap Node.declaration?

/-- The declaration at the given place among the nodes. -/
def declaration? (r : Rule) (index : Nat) : Option Declaration :=
  r.nodes[index]?.bind Node.declaration?

/-- The places of the declarations whose property has `p`. -/
def placesOf (r : Rule) (p : String → Bool) : List Nat :=
  (r.nodes.zipIdx.filter fun n => n.1.declaration?.any fun d => p d.property).map Prod.snd

/-- Whether a declaration of the rule has a property with `p`. -/
def declares (r : Rule) (p : String → Bool) : Bool := r.declarations.any fun d => p d.property

/-- The node `n` with the declaration `d` behind it.  A declaration hands its semicolon on, or
the lack of one, and is ended by a semicolon itself. -/
def following (d : Declaration) : Node → List Node
  | .declaration e =>
    [.declaration { e with semicolon := true }, .declaration { d with semicolon := e.semicolon }]
  | n => [n, .declaration d]

/-- Puts a declaration behind the node at the given place, or behind the last one. -/
def insertInto (d : Declaration) : Nat → List Node → List Node
  | _, [] => [.declaration d]
  | _, [n] => following d n
  | 0, n :: ns => following d n ++ ns
  | i + 1, n :: ns => n :: insertInto d i ns

def insertAfter (r : Rule) (index : Nat) (d : Declaration) : Rule :=
  { r with nodes := insertInto d index r.nodes }

end Rule
end GradientFallback
