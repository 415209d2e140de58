import GradientFallback.Stylesheet.Basic

/-! # Writing stylesheets

A node is written with all the texts it keeps.  A block is closed even where the closing brace was
missing when it was read.
-/
namespace GradientFallback

def RuleHead.print (h : RuleHead) : String := h.before ++ h.selector ++ h.between

def AtRuleHead.print (h : AtRuleHead) : String :=
  h.before ++ "@" ++ h.name ++ h.afterName ++ h.params ++ h.between

/-- The mark of importance, as written or else in the usual spelling. -/
def Declaration.markerText (d : Declaration) : String :=
  if d.important then d.marker.getD " !important" else ""

def Declaration.print (d : Declaration) : String :=
  d.before ++ d.property ++ d.between ++ d.value ++ d.markerText ++ d.after ++
    (if d.semicolon then ";" else "")

def Comment.print (c : Comment) : String := c.before ++ "/*" ++ c.content ++ "*/"

mutual

def Node.print : Node → String
  | .rule head nodes after => head.print ++ "\x7b" ++ Node.printAll nodes ++ after ++ "\x7d"
  | .atRule head nodes after => head.print ++ "\x7b" ++ Node.printAll nodes ++ after ++ "\x7d"
  | .statement head semicolon => head.print ++ (if semicolon then ";" else "")
  | .declaration d => d.print
  | .comment c => c.print

def Node.printAll : List Node → String
  | [] => ""
  | n :: ns => n.print ++ Node.printAll ns

end

def Rule.print (r : Rule) : String := (Node.ofRule r).print

def Stylesheet.print (s : Stylesheet) : String := Node.printAll s.nodes ++ s.after

end GradientFallback
