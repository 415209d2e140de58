import GradientFallback.Proofs.Fallback.Grafting
import Mathlib.Data.List.Forall2

/-! # Layouts with all their filters

A tidy layout grows to a tidy layout of the tree with its filters.  No rule of that tree gets a
filter again: a rule that got one has it, and all other rules have the declarations they had.
-/
namespace GradientFallback

/-- If the rule gets a filter behind a declaration without a semicolon, that declaration takes one. -/
def Rule.TakesFilter (o : Options) (r : Rule) : Prop :=
  (RuleReport.of o r).isApplied = true →
    ∀ front d back, Node.LastGradient r.nodes front d back → d.semicolon = false → d.TakesSemicolon

theorem Rule.takesFilter_of_declarations (o : Options) {r : Rule}
    (h : ∀ d ∈ r.declarations, d.semicolon = false → d.TakesSemicolon) : r.TakesFilter o := by
  intro _ front d back hlast
  exact h d (Rule.mem_declarations.2 hlast.mem)

/-- The node is written as the node `n` with its filters, and it gets none itself. -/
structure Node.Grown (o : Options) (n n' : Node) : Prop where
  print : n'.print = (n.withFilters o).print
  declaration : n'.declaration? = n.declaration?
  filterCount : Node.filterCount o [n'] = 0

namespace Node

variable {o : Options}

theorem Grown.all {ns ns' : List Node} (h : List.Forall₂ (Grown o) ns ns') :
    printAll ns' = printAll (ns.map (·.withFilters o)) ∧ ns'.map content = ns.map content ∧
      Node.filterCount o ns' = 0 := by
  induction h with
  | nil => exact ⟨rfl, rfl, rfl⟩
  | @cons n n' ns ns' first others ih =>
    obtain ⟨hprint, hcontent, hcount⟩ := ih
    refine ⟨?_, ?_, ?_⟩
    · rw [printAll, first.print, hprint]
      rfl
    · rw [List.map_cons, List.map_cons, hcontent, content, first.declaration]
      rfl
    · have happend := filterCount_append o [n'] ns'
      rwa [first.filterCount, hcount] at happend

/-- A declaration stays in its place. -/
theorem Grown.exists_split {front back ns' : List Node} {d : Declaration}
    (h : List.Forall₂ (Grown o) (front ++ .declaration d :: back) ns') :
    ∃ front' back', ns' = front' ++ .declaration d :: back' ∧
      List.Forall₂ (Grown o) front front' ∧ List.Forall₂ (Grown o) back back' := by
  induction front generalizing ns' with
  | nil =>
    obtain ⟨n', back', hn, hback, rfl⟩ := List.forall₂_cons_left_iff.1 h
    obtain rfl : n' = .declaration d := declaration_of_declaration? hn.declaration
    exact ⟨[], back', rfl, .nil, hback⟩
  | cons n front ih =>
    obtain ⟨n', more, hn, hmore, rfl⟩ := List.forall₂_cons_left_iff.1 h
    obtain ⟨front', back', rfl, hfront, hback⟩ := ih hmore
    exact ⟨n' :: front', back', rfl, .cons hn hfront, hback⟩

/-- Blocks are written alike if what stands between their braces is. -/
theorem print_node_congr (opening : Opening) {nodes nodes' : List Node} {after after' : String}
    (h : (printAll nodes).toList ++ after.toList = (printAll nodes').toList ++ after'.toList) :
    (opening.node nodes after).print = (opening.node nodes' after').print := by
  rw [← String.toList_append, ← String.toList_append, String.toList_inj] at h
  have hblock (front : String) (ns : List Node) (behind : String) :
      front ++ "\x7b" ++ printAll ns ++ behind ++ "\x7d" =
        front ++ "\x7b" ++ (printAll ns ++ behind) ++ "\x7d" := by
    simp only [String.append_assoc]
  cases opening with
  | rule head => rw [Opening.node, Opening.node, print, print, hblock, h, ← hblock]
  | atRule head => rw [Opening.node, Opening.node, print, print, hblock, h, ← hblock]

theorem Grown.refl_of_leaf {nested : Bool} {before : String} {ts rest : List Token} {n : Node}
    (h : Leaf nested before ts rest n) : Grown o n n := by
  cases h <;> exact ⟨rfl, rfl, rfl⟩

theorem Grown.refl_of_trivia {nested : Bool} {c : Layout} (hc : c.Lawful nested)
    (h : Token.AllTrivia c.tokens) : List.Forall₂ (Grown o) c.nodes c.nodes := by
  rw [List.forall₂_same]
  intro n hn
  obtain ⟨k, rfl⟩ := Layout.nodes_of_trivia hc h n hn
  exact ⟨rfl, rfl, rfl⟩

theorem Grown.atRule {head : AtRuleHead} {nodes nodes' : List Node} {after : String}
    (h : List.Forall₂ (Grown o) nodes nodes') :
    Grown o (.atRule head nodes after) (.atRule head nodes' after) := by
  obtain ⟨hprint, -, hcount⟩ := Grown.all h
  refine ⟨?_, rfl, ?_⟩
  · rw [withFilters, visit_atRule_fst, Node.print, Node.print, hprint]
    rfl
  · rw [filterCount_atRule, hcount]

theorem Grown.rule_of_skipped {head : RuleHead} {nodes nodes' : List Node} {after : String}
    (h : List.Forall₂ (Grown o) nodes nodes')
    (hskipped : (RuleReport.of o ⟨head, nodes, after⟩).isApplied = false)
    (hrule : (Node.rule head nodes after).withFilters o =
      .rule head (nodes.map (·.withFilters o)) after) :
    Grown o (.rule head nodes after) (.rule head nodes' after) := by
  obtain ⟨hprint, hcontent, hcount⟩ := Grown.all h
  refine ⟨?_, rfl, ?_⟩
  · rw [hrule, Node.print, Node.print, hprint]
  · have hsame : (RuleReport.of o ⟨head, nodes', after⟩).isApplied =
        (RuleReport.of o ⟨head, nodes, after⟩).isApplied := RuleReport.isApplied_congr o hcontent
    rw [filterCount_rule, hcount, hsame, hskipped]
    rfl

/-- What is laid out in the block of a rule can be laid out with the filter of the rule. -/
theorem Grown.exists_rule {head : RuleHead} {inner inner' : Layout} (htidy : inner'.Tidy true)
    (hafter : inner'.after = inner.after)
    (hgrown : List.Forall₂ (Grown o) inner.nodes inner'.nodes)
    (hends : Rule.TakesFilter o ⟨head, inner.nodes, inner.after⟩) :
    ∃ inner'' : Layout, inner''.Tidy true ∧
      Grown o (.rule head inner.nodes inner.after) (.rule head inner''.nodes inner''.after) := by
  rcases withFilters_rule o head inner.nodes inner.after with
    ⟨hskipped, hrule⟩ | ⟨filter, front, d, back, hfilter, htemplate, hlast, hrule⟩
  · refine ⟨inner', htidy, ?_⟩
    rw [hafter]
    exact .rule_of_skipped hgrown hskipped hrule
  · have happlied : (RuleReport.of o ⟨head, inner.nodes, inner.after⟩).isApplied = true := by
      rw [RuleReport.isApplied, hfilter]
    have hnodes : inner.nodes = front ++ .declaration d :: back := hlast.nodes_eq
    have hcount := (Grown.all hgrown).2.2
    rw [hnodes] at hgrown
    obtain ⟨front', back', hnodes', hfront, hback⟩ := Grown.exists_split hgrown
    obtain ⟨inner'', hinner, hsource, hrules, e, he, hname⟩ := htidy.exists_graft hnodes'
      hlast.holds.1 htemplate (hends happlied front d back hlast)
    refine ⟨inner'', hinner, ?_, rfl, ?_⟩
    · rw [hrule]
      refine print_node_congr (.rule head) ?_
      rw [hinner.print, hsource, hafter]
      rw [printAll_graft, printAll_graft, (Grown.all hfront).1, (Grown.all hback).1]
    · have hdeclares : Rule.declares ⟨head, inner''.nodes, inner''.after⟩ isFilterProperty = true := by
        rw [Rule.declares, List.any_eq_true]
        exact ⟨e, Rule.mem_declarations.2 he, by rw [hname]; rfl⟩
      have hinnerCount : Node.filterCount o inner''.nodes = 0 := by
        rw [Node.filterCount, hrules]
        exact hcount
      rw [filterCount_rule, hinnerCount, RuleReport.isApplied_of_declares o hdeclares]
      rfl

end Node

namespace Layout

/-- A tidy layout grows to a tidy layout of the tree with its filters. -/
theorem Tidy.exists_grown {o : Options} {nested : Bool} {c : Layout} (hc : c.Tidy nested)
    (hends : ∀ r ∈ Node.rulesOfAll c.nodes, r.TakesFilter o) :
    ∃ c' : Layout, c'.Tidy nested ∧ c'.after = c.after ∧
      List.Forall₂ (Node.Grown o) c.nodes c'.nodes := by
  induction c generalizing nested with
  | ending blanks => exact ⟨_, hc, rfl, .nil⟩
  | sign blanks t rest ih => exact absurd hc Tidy.not_sign
  | leaf blanks ts n rest ih =>
    obtain ⟨-, hleaf, -, -, hrest⟩ := Tidy.leaf_iff.1 hc
    by_cases htrivia : Token.AllTrivia rest.tokens
    · exact ⟨_, hc, rfl, .cons (.refl_of_leaf hleaf)
        (Node.Grown.refl_of_trivia hrest.lawful htrivia)⟩
    · obtain ⟨rest', hrest', hafter, hgrown⟩ := ih hrest fun r hr =>
        hends r (List.mem_append_right _ hr)
      exact ⟨_, hc.leaf_move htrivia hrest', hafter, .cons (.refl_of_leaf hleaf) hgrown⟩
  | block blanks head opening inner innerEnd rest ihInner ihRest =>
    obtain ⟨hopens, hinner, hrest⟩ := Tidy.block_iff.1 hc
    obtain ⟨rest', hrest', hafter, hgrown⟩ := ihRest hrest fun r hr =>
      hends r (List.mem_append_right _ hr)
    have hblock : ∃ inner' : Layout, inner'.Tidy true ∧ Node.Grown o
        (opening.node inner.nodes inner.after) (opening.node inner'.nodes inner'.after) := by
      cases opening with
      | rule head =>
        obtain ⟨inner', htidy, hsame, hinnerGrown⟩ := ihInner hinner fun r hr =>
          hends r (List.mem_append_left _ (List.mem_cons_of_mem _ hr))
        exact Node.Grown.exists_rule htidy hsame hinnerGrown
          (hends _ (List.mem_append_left _ List.mem_cons_self))
      | atRule head =>
        obtain ⟨inner', htidy, hsame, hinnerGrown⟩ := ihInner hinner fun r hr =>
          hends r (List.mem_append_left _ hr)
        refine ⟨inner', htidy, ?_⟩
        rw [hsame]
        exact .atRule hinnerGrown
    obtain ⟨inner', hinner', hnode⟩ := hblock
    exact ⟨_, Tidy.block_iff.2 ⟨hopens, hinner', hrest'⟩, hafter, .cons hnode hgrown⟩

end Layout
end GradientFallback
