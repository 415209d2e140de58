import GradientFallback.Proofs.Fallback.Insertion
import GradientFallback.Proofs.Stylesheet.Blocks
import Mathlib.Data.List.Forall2

/-! # Filters keep nodes apart

A filter takes over how the declaration in front of it was ended, and that one gets a semicolon.  So
a block is separated with its filters if and only if it was separated without them.
-/
namespace GradientFallback
namespace Node

/-- Only whether a declaration is ended counts for what may stand behind it. -/
theorem mayPrecede_declaration_congr {d e : Declaration} (h : d.semicolon = e.semicolon) (m : Node) :
    (declaration d).MayPrecede m ↔ (declaration e).MayPrecede m := by
  rw [MayPrecede, MayPrecede, h]

/-- No declaration is a comment. -/
theorem mayPrecede_of_declaration (n : Node) (d e : Declaration) :
    n.MayPrecede (declaration d) ↔ n.MayPrecede (declaration e) := by
  cases n <;> simp [MayPrecede]

/-- A block with a filter in it is separated if the block is. -/
theorem separated_graft (front back : List Node) (d : Declaration) (filter : String) :
    Separated (graft front d filter back) ↔ Separated (front ++ declaration d :: back) := by
  have hended (m : Node) : (declaration { d with semicolon := true }).MayPrecede m := .inl rfl
  have hbehind := mayPrecede_declaration_congr
    (d := { d with property := "filter", value := filter }) (e := d) rfl
  rw [separated_iff_pairwise, separated_iff_pairwise, graft, List.pairwise_append,
    List.pairwise_append, List.pairwise_cons, List.pairwise_cons, List.pairwise_cons]
  simp only [hbehind, hended, List.forall_mem_cons, implies_true, true_and,
    mayPrecede_of_declaration _ _ d, and_self_left]

section Visit

variable (o : Options)

theorem withFilters_eq_comment_iff (n : Node) (c : Comment) :
    n.withFilters o = comment c ↔ n = comment c := by
  cases n with
  | rule head nodes after => simp [withFilters, visit_rule_fst, ofRule]
  | atRule head nodes after => simp [withFilters, visit_atRule_fst]
  | statement => rfl
  | declaration => rfl
  | comment => rfl

theorem mayPrecede_withFilters (n m : Node) :
    (n.withFilters o).MayPrecede (m.withFilters o) ↔ n.MayPrecede m := by
  cases n with
  | rule head nodes after =>
    rw [withFilters, visit_rule_fst]
    exact iff_of_true trivial trivial
  | atRule head nodes after =>
    rw [withFilters, visit_atRule_fst]
    exact iff_of_true trivial trivial
  | statement => rfl
  | declaration d =>
    apply or_congr_right
    exact exists_congr fun c => m.withFilters_eq_comment_iff o c
  | comment => rfl

theorem separated_map_withFilters (nodes : List Node) :
    Separated (nodes.map (·.withFilters o)) ↔ Separated nodes := by
  rw [separated_iff_pairwise, separated_iff_pairwise, List.pairwise_map]
  apply Iff.of_eq
  congr
  funext n m
  exact propext (mayPrecede_withFilters o n m)

theorem blocksOfAll_append (ns ms : List Node) :
    blocksOfAll (ns ++ ms) = blocksOfAll ns ++ blocksOfAll ms := by
  simp only [blocksOfAll_eq_flatMap, List.flatMap_append]

theorem blocksOfAll_graft (front back : List Node) (d : Declaration) (filter : String) :
    blocksOfAll (graft front d filter back) = blocksOfAll (front ++ declaration d :: back) := by
  rw [graft, blocksOfAll_append, blocksOfAll_append]
  rfl

/-- The block of a rule with its filters is separated if the block is, and the blocks in it are
those of the nodes with their filters. -/
theorem withFilters_rule_block (head : RuleHead) (nodes : List Node) (after : String) :
    ∃ inner, (rule head nodes after).withFilters o = rule head inner after ∧
      (Separated inner ↔ Separated nodes) ∧
      blocksOfAll inner = blocksOfAll (nodes.map (·.withFilters o)) := by
  rcases withFilters_rule o head nodes after with
    ⟨-, hrule⟩ | ⟨filter, front, d, back, -, -, hlast, hrule⟩
  · exact ⟨_, hrule, separated_map_withFilters o nodes, rfl⟩
  · have hnodes : nodes.map (·.withFilters o) =
        front.map (·.withFilters o) ++ declaration d :: back.map (·.withFilters o) := by
      rw [hlast.nodes_eq, List.map_append, List.map_cons]
      rfl
    refine ⟨_, hrule, ?_, ?_⟩
    · rw [separated_graft, ← hnodes]
      exact separated_map_withFilters o nodes
    · rw [blocksOfAll_graft, hnodes]

theorem forall₂_blocksOfAll {R : List Node → List Node → Prop} {nodes : List Node}
    (h : ∀ n ∈ nodes, List.Forall₂ R n.blocks (n.withFilters o).blocks) :
    List.Forall₂ R (blocksOfAll nodes) (blocksOfAll (nodes.map (·.withFilters o))) := by
  induction nodes with
  | nil => exact .nil
  | cons n nodes ih =>
    apply List.rel_append (h n List.mem_cons_self)
    exact ih fun m hm => h m (List.mem_cons_of_mem n hm)

/-- A block in a node is separated with its filters if and only if it is without them. -/
theorem separated_withFilters (n : Node) :
    List.Forall₂ (fun b b' => Separated b' ↔ Separated b) n.blocks (n.withFilters o).blocks := by
  induction n using induct with
  | rule head nodes after ih =>
    obtain ⟨inner, hrule, hblock, hinner⟩ := withFilters_rule_block o head nodes after
    rw [hrule, blocks, blocks, hinner]
    exact .cons hblock (forall₂_blocksOfAll o ih)
  | atRule head nodes after ih =>
    rw [withFilters, visit_atRule_fst]
    exact .cons (separated_map_withFilters o nodes) (forall₂_blocksOfAll o ih)
  | statement => exact .nil
  | declaration => exact .nil
  | comment => exact .nil

end Visit

end Node

namespace Stylesheet

theorem separated_transform (o : Options) (s : Stylesheet) :
    List.Forall₂ (fun b b' => Node.Separated b' ↔ Node.Separated b) s.blocks
      (s.transform o).1.blocks := by
  rw [blocks, blocks, transform_nodes]
  apply List.Forall₂.cons
  · exact Node.separated_map_withFilters o s.nodes
  · exact Node.forall₂_blocksOfAll o fun n _ => n.separated_withFilters o

/-- The blocks of a stylesheet that is read strictly are separated, and a block with its filters is
separated if and only if it was so before. -/
theorem blocks_separated :
    (∀ (config : ParseConfig) (text : String) (s : Stylesheet), config.lenient = false →
      parse config text = .ok s → ∀ b ∈ s.blocks, Node.Separated b) ∧
    ∀ (o : Options) (s : Stylesheet),
      List.Forall₂ (fun b b' => Node.Separated b' ↔ Node.Separated b) s.blocks
        (s.transform o).1.blocks :=
  ⟨fun _ _ _ hstrict hs => separated_of_parse hstrict hs, separated_transform⟩

/-- A declaration and a statement that no semicolon ends, with a comment behind the first. -/
theorem blocks_separated_unended :
    ∃ s, parse .strict "@media tv\x7ba\x7bb:c/*d*/\x7d\x7d@e f" = .ok s ∧
      s.blocks.map List.length = [2, 1, 2] ∧ ∀ b ∈ s.blocks, Node.Separated b := by
  have hread : (parse .strict "@media tv\x7ba\x7bb:c/*d*/\x7d\x7d@e f").toOption.any (fun s =>
      s.blocks.map List.length = [2, 1, 2]) = true := by
    decide +kernel
  rcases hs : parse .strict "@media tv\x7ba\x7bb:c/*d*/\x7d\x7d@e f" with e | s
  · rw [hs] at hread
    exact absurd hread nofun
  · rw [hs] at hread
    exact ⟨s, rfl, of_decide_eq_true hread, blocks_separated.1 .strict _ s rfl hs⟩

end Stylesheet
end GradientFallback
