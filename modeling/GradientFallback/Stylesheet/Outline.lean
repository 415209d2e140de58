import GradientFallback.Stylesheet.Basic
import GradientFallback.Text.Quoted

/-! # Outlines

An outline shows the tree of a stylesheet, one node a line and each level two columns further in.
-/
namespace GradientFallback

namespace Outline

/-- One line at the given level. -/
def line (level : Nat) (text : String) : String :=
  String.ofList (List.replicate (2 * level) ' ') ++ text ++ "\n"

def place (l : Location) : String := " at " ++ l.text

def atRuleLine (h : AtRuleHead) : String :=
  "[AtRule] name: " ++ h.name ++ " params: " ++ quoted h.params ++ place h.location

def declarationLine (d : Declaration) : String :=
  "[Declaration] property: " ++ d.property ++ " important: " ++
    (if d.important then "true" else "false") ++ place d.location

end Outline

open Outline

mutual

def Node.outline (level : Nat) : Node → String
  | .rule head nodes _ =>
    line level ("[Rule] " ++ quoted head.selector ++ place head.location) ++
      Node.outlineAll (level + 1) nodes
  | .atRule head nodes _ => line level (atRuleLine head) ++ Node.outlineAll (level + 1) nodes
  | .statement head _ => line level (atRuleLine head)
  | .declaration d =>
    line level (declarationLine d) ++ line (level + 1) ("[Value] " ++ d.value)
  | .comment c => line level ("[Comment] " ++ quoted c.content)

def Node.outlineAll (level : Nat) : List Node → String
  | [] => ""
  | n :: ns => n.outline level ++ Node.outlineAll level ns

end

def Stylesheet.outline (s : Stylesheet) : String :=
  "[Stylesheet (" ++ toString s.nodes.length ++ ")]\n" ++ Node.outlineAll 1 s.nodes

end GradientFallback
