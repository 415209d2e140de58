import GradientFallback.Stylesheet.Printer
import GradientFallback.Stylesheet.Rules
import Mathlib.Data.List.Basic

/-! # Visits and texts, node by node

What is said of the nodes of a block is said of each of them: a visit goes to each node, the rules
and the text of a block are those of its nodes, one after the other.
-/
namespace GradientFallback
namespace Node

mutual

/-- What holds of a block if it holds of its nodes, and of all other nodes, holds of every node. -/
@[elab_as_elim]
theorem induct {P : Node → Prop}
    (rule : ∀ head nodes after, (∀ n ∈ nodes, P n) → P (.rule head nodes after))
    (atRule : ∀ head nodes after, (∀ n ∈ nodes, P n) → P (.atRule head nodes after))
    (statement : ∀ head semicolon, P (.statement head semicolon))
    (declaration : ∀ d, P (.declaration d)) (comment : ∀ c, P (.comment c)) : ∀ n, P n
  | .rule head nodes after =>
    rule head nodes after (inductAll rule atRule statement declaration comment nodes)
  | .atRule head nodes after =>
    atRule head nodes after (inductAll rule atRule statement declaration comment nodes)
  | .statement head semicolon => statement head semicolon
  | .declaration d => declaration d
  | .comment c => comment c

theorem inductAll {P : Node → Prop}
    (rule : ∀ head nodes after, (∀ n ∈ nodes, P n) → P (.rule head nodes after))
    (atRule : ∀ head nodes after, (∀ n ∈ nodes, P n) → P (.atRule head nodes after))
    (statement : ∀ head semicolon, P (.statement head semicolon))
    (declaration : ∀ d, P (.declaration d)) (comment : ∀ c, P (.comment c)) :
    ∀ nodes : List Node, ∀ n ∈ nodes, P n
  | [], _, h => absurd h nofun
  | m :: ms, n, h =>
    (List.mem_cons.1 h).elim
      (fun hn => hn ▸ induct rule atRule statement declaration comment m)
      (inductAll rule atRule statement declaration comment ms n)

end

theorem rulesOfAll_eq_flatMap (nodes : List Node) : rulesOfAll nodes = nodes.flatMap rules := by
  induction nodes with
  | nil => rfl
  | cons n nodes ih => rw [rulesOfAll, ih, List.flatMap_cons]

theorem rulesOfAll_append (ns ms : List Node) :
    rulesOfAll (ns ++ ms) = rulesOfAll ns ++ rulesOfAll ms := by
  simp only [rulesOfAll_eq_flatMap, List.flatMap_append]

theorem printAll_toList (nodes : List Node) :
    (printAll nodes).toList = nodes.flatMap fun n => n.print.toList := by
  induction nodes with
  | nil => rfl
  | cons n nodes ih => rw [printAll, String.toList_append, ih, List.flatMap_cons]

section Visit

variable {ρ : Type} (look : Rule → ρ) (edit : ρ → Rule → Rule)

theorem visitAll_fst (nodes : List Node) :
    (visitAll look edit nodes).1 = nodes.map fun n => (n.visit look edit).1 := by
  induction nodes with
  | nil => rfl
  | cons n nodes ih => rw [visitAll, List.map_cons, ← ih]

theorem visitAll_snd (nodes : List Node) :
    (visitAll look edit nodes).2 = nodes.flatMap fun n => (n.visit look edit).2 := by
  induction nodes with
  | nil => rfl
  | cons n nodes ih => rw [visitAll, List.flatMap_cons, ← ih]

theorem visit_rule_fst (head : RuleHead) (nodes : List Node) (after : String) :
    ((Node.rule head nodes after).visit look edit).1 = Node.ofRule (edit (look ⟨head, nodes, after⟩)
      ⟨head, nodes.map fun n => (n.visit look edit).1, after⟩) := by
  rw [← visitAll_fst]
  rfl

theorem visit_atRule_fst (head : AtRuleHead) (nodes : List Node) (after : String) :
    ((Node.atRule head nodes after).visit look edit).1 =
      .atRule head (nodes.map fun n => (n.visit look edit).1) after := by
  rw [← visitAll_fst]
  rfl

/-- A visit looks at every rule as it was before, in the order in which the rules start. -/
theorem visit_snd (n : Node) : (n.visit look edit).2 = n.rules.map look := by
  have hall (nodes : List Node) (h : ∀ n ∈ nodes, (n.visit look edit).2 = n.rules.map look) :
      (visitAll look edit nodes).2 = (rulesOfAll nodes).map look := by
    rw [visitAll_snd, rulesOfAll_eq_flatMap, List.map_flatMap]
    exact List.flatMap_congr h
  induction n using induct with
  | rule head nodes after ih => rw [visit, rules, List.map_cons, ← hall nodes ih]
  | atRule head nodes after ih => rw [visit, rules, ← hall nodes ih]
  | statement => rfl
  | declaration => rfl
  | comment => rfl

theorem visitAll_snd_rules (nodes : List Node) :
    (visitAll look edit nodes).2 = (rulesOfAll nodes).map look := by
  rw [visitAll_snd, rulesOfAll_eq_flatMap, List.map_flatMap]
  exact List.flatMap_congr fun n _ => visit_snd look edit n

/-- A visit leaves the declarations of a block as they are. -/
theorem declaration?_visit (n : Node) :
    (n.visit look edit).1.declaration? = n.declaration? := by
  cases n <;> rfl

theorem declaration?_visitAll (nodes : List Node) :
    (visitAll look edit nodes).1.map declaration? = nodes.map declaration? := by
  rw [visitAll_fst, List.map_map]
  exact List.map_congr_left fun n _ => declaration?_visit look edit n

end Visit

end Node
end GradientFallback
