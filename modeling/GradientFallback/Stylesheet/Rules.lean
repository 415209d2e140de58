import GradientFallback.Stylesheet.Basic

/-! # The rules of a stylesheet

The style rules of a stylesheet are taken in the order in which they start: a rule comes before the
rules inside it.  A visit looks at every rule as it was before the visit and then edits it.
-/
namespace GradientFallback

mutual

/-- The rules of a node, an outer one before the inner ones. -/
def Node.rules : Node → List Rule
  | .rule head nodes after => ⟨head, nodes, after⟩ :: Node.rulesOfAll nodes
  | .atRule _ nodes _ => Node.rulesOfAll nodes
  | _ => []

def Node.rulesOfAll : List Node → List Rule
  | [] => []
  | n :: ns => n.rules ++ Node.rulesOfAll ns

end

variable {ρ : Type}

mutual

/-- Looks at every rule, notes what is found, and edits the rule after the rules inside it. -/
def Node.visit (look : Rule → ρ) (edit : ρ → Rule → Rule) : Node → Node × List ρ
  | .rule head nodes after =>
    let note := look ⟨head, nodes, after⟩
    let (inner, notes) := Node.visitAll look edit nodes
    (Node.ofRule (edit note ⟨head, inner, after⟩), note :: notes)
  | .atRule head nodes after =>
    let (inner, notes) := Node.visitAll look edit nodes
    (.atRule head inner after, notes)
  | n => (n, [])

def Node.visitAll (look : Rule → ρ) (edit : ρ → Rule → Rule) : List Node → List Node × List ρ
  | [] => ([], [])
  | n :: ns =>
    let (first, notes) := n.visit look edit
    let (others, more) := Node.visitAll look edit ns
    (first :: others, notes ++ more)

end

mutual

/-- Edits the rule with the given number, counted from zero; without such a rule it tells by how
much the number is too large. -/
def Node.editRule (edit : Rule → Rule) (number : Nat) : Node → Node × Option Nat
  | .rule head nodes after =>
    match number with
    | 0 => (Node.ofRule (edit ⟨head, nodes, after⟩), none)
    | n + 1 =>
      let (inner, left) := Node.editRuleOfAll edit n nodes
      (.rule head inner after, left)
  | .atRule head nodes after =>
    let (inner, left) := Node.editRuleOfAll edit number nodes
    (.atRule head inner after, left)
  | n => (n, some number)

def Node.editRuleOfAll (edit : Rule → Rule) (number : Nat) : List Node → List Node × Option Nat
  | [] => ([], some number)
  | n :: ns =>
    match n.editRule edit number with
    | (edited, none) => (edited :: ns, none)
    | (same, some left) =>
      let (others, remaining) := Node.editRuleOfAll edit left ns
      (same :: others, remaining)

end

namespace Stylesheet

def rules (s : Stylesheet) : List Rule := Node.rulesOfAll s.nodes

def visit (look : Rule → ρ) (edit : ρ → Rule → Rule) (s : Stylesheet) : Stylesheet × List ρ :=
  let (nodes, notes) := Node.visitAll look edit s.nodes
  ({ s with nodes := nodes }, notes)

/-- Edits every rule. -/
def mapRules (edit : Rule → Rule) (s : Stylesheet) : Stylesheet :=
  (s.visit (fun _ => ()) (fun _ => edit)).1

/-- Edits the rule with the given number, if there is one. -/
def editRule? (edit : Rule → Rule) (number : Nat) (s : Stylesheet) : Option Stylesheet :=
  match Node.editRuleOfAll edit number s.nodes with
  | (nodes, none) => some { s with nodes := nodes }
  | (_, some _) => none

end Stylesheet
end GradientFallback
