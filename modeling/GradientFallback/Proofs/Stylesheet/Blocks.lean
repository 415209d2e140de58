import GradientFallback.Proofs.Stylesheet.Building
import GradientFallback.Proofs.Stylesheet.Visiting

/-! # Blocks whose nodes stay apart

In the text of a block a declaration runs into what stands behind it unless a semicolon or nothing but
comments follow, and a statement without a block unless a semicolon follows or nothing at all.  The
blocks of every stylesheet that is read strictly are free of such places.
-/
namespace GradientFallback

namespace Node

/-- A declaration without a semicolon has only comments behind it, and a statement without one ends
its block. -/
structure Separated (nodes : List Node) : Prop where
  declaration : ∀ front d back, nodes = front ++ .declaration d :: back → d.semicolon = false →
    ∀ n ∈ back, ∃ c, n = .comment c
  statement : ∀ front head back, nodes = front ++ .statement head false :: back → back = []

/-- The node `m` may stand behind the node `n` in a separated block. -/
def MayPrecede (n m : Node) : Prop :=
  match n with
  | .declaration d => d.semicolon = true ∨ ∃ c, m = .comment c
  | .statement _ semicolon => semicolon = true
  | _ => True

theorem separated_nil : Separated [] :=
  ⟨fun front d back h => absurd h (by simp), fun front head back h => absurd h (by simp)⟩

theorem Separated.tail {n : Node} {nodes : List Node} (h : Separated (n :: nodes)) :
    Separated nodes where
  declaration front d back hnodes := h.declaration (n :: front) d back (by rw [hnodes]; rfl)
  statement front head back hnodes := h.statement (n :: front) head back (by rw [hnodes]; rfl)

theorem Separated.mayPrecede {n : Node} {nodes : List Node} (h : Separated (n :: nodes)) :
    ∀ m ∈ nodes, n.MayPrecede m := by
  intro m hm
  cases n with
  | declaration d =>
    by_cases hd : d.semicolon = true
    · exact .inl hd
    · exact .inr (h.declaration [] d nodes rfl (Bool.eq_false_iff.2 hd) m hm)
  | statement head semicolon =>
    cases semicolon with
    | true => rfl
    | false =>
      rw [h.statement [] head nodes rfl] at hm
      exact absurd hm List.not_mem_nil
  | rule head nodes after => trivial
  | atRule head nodes after => trivial
  | comment c => trivial

theorem Separated.cons {n : Node} {nodes : List Node} (hn : ∀ m ∈ nodes, n.MayPrecede m)
    (h : Separated nodes) : Separated (n :: nodes) := by
  constructor
  · intro front d back hnodes hd
    cases front with
    | nil =>
      obtain ⟨rfl, rfl⟩ := List.cons.inj hnodes
      intro m hm
      apply (hn m hm).resolve_left
      rw [hd]
      exact Bool.false_ne_true
    | cons m front => exact h.declaration front d back (List.cons.inj hnodes).2 hd
  · intro front head back hnodes
    cases front with
    | nil =>
      obtain ⟨rfl, rfl⟩ := List.cons.inj hnodes
      apply List.eq_nil_iff_forall_not_mem.2
      intro m hm
      exact Bool.false_ne_true (hn m hm)
    | cons m front => exact h.statement front head back (List.cons.inj hnodes).2

/-- In a separated block every node may stand in front of all the nodes behind it. -/
theorem separated_iff_pairwise {nodes : List Node} : Separated nodes ↔ nodes.Pairwise MayPrecede := by
  induction nodes with
  | nil => exact ⟨fun _ => .nil, fun _ => separated_nil⟩
  | cons n nodes ih =>
    rw [List.pairwise_cons, ← ih]
    exact ⟨fun h => ⟨h.mayPrecede, h.tail⟩, fun h => .cons h.1 h.2⟩

/-! ## The blocks of a tree -/

mutual

/-- The blocks in a node, an outer one before the inner ones. -/
def blocks : Node → List (List Node)
  | .rule _ nodes _ => nodes :: blocksOfAll nodes
  | .atRule _ nodes _ => nodes :: blocksOfAll nodes
  | _ => []

def blocksOfAll : List Node → List (List Node)
  | [] => []
  | n :: ns => n.blocks ++ blocksOfAll ns

end

theorem blocksOfAll_eq_flatMap (nodes : List Node) : blocksOfAll nodes = nodes.flatMap blocks := by
  induction nodes with
  | nil => rfl
  | cons n nodes ih => rw [blocksOfAll, ih, List.flatMap_cons]

theorem blocks_node (o : Opening) (nodes : List Node) (after : String) :
    (o.node nodes after).blocks = nodes :: blocksOfAll nodes := by
  cases o <;> rfl

end Node

/-- The nodes outside all blocks, and the blocks in the order in which they start. -/
def Stylesheet.blocks (s : Stylesheet) : List (List Node) := s.nodes :: Node.blocksOfAll s.nodes

/-! ## Blocks that are read -/

theorem Leaf.blocks_eq_nil {nested : Bool} {before : String} {ts rest : List Token} {n : Node}
    (h : Leaf nested before ts rest n) : n.blocks = [] := by
  cases h <;> rfl

namespace Layout

theorem nodes_of_tokens_nil {nested : Bool} {c : Layout} (hc : c.Lawful nested) (h : c.tokens = []) :
    c.nodes = [] := by
  cases c with
  | ending blanks => rfl
  | sign blanks t rest => simp [tokens] at h
  | leaf blanks ts n rest =>
    have hts : ts ≠ [] := Item.leaf_ne_nil hc.2.1
    simp [tokens, hts] at h
  | block blanks head o inner innerEnd rest => simp [tokens] at h

/-- What is laid out behind a node may stand behind it. -/
theorem mayPrecede_of_leaf {nested : Bool} {before : String} {ts : List Token} {n : Node}
    {rest : Layout} (h : Leaf nested before ts rest.tokens n) (hrest : rest.Lawful nested) :
    ∀ m ∈ rest.nodes, n.MayPrecede m := by
  intro m hm
  generalize hmore : rest.tokens = more at h
  cases h with
  | comment kind => trivial
  | statement kind passes closed ends => rfl
  | lastStatement kind passes closed =>
    rw [nodes_of_tokens_nil hrest hmore] at hm
    exact absurd hm List.not_mem_nil
  | declaration inside lawful after_trivia after_nil ends => exact .inl rfl
  | lastDeclaration inside lawful rest_trivia rest_nil =>
    rw [← hmore] at rest_trivia
    exact .inr (nodes_of_trivia hrest rest_trivia m hm)

/-- The nodes of a layout and all blocks in them are separated. -/
theorem separated_nodes {nested : Bool} {c : Layout} (hc : c.Lawful nested) :
    Node.Separated c.nodes ∧ ∀ b ∈ Node.blocksOfAll c.nodes, Node.Separated b := by
  induction c generalizing nested with
  | ending blanks => exact ⟨Node.separated_nil, List.forall_mem_nil _⟩
  | sign blanks t rest ih => exact ih hc.2.2
  | leaf blanks ts n rest ih =>
    obtain ⟨-, hleaf, hrest⟩ := hc
    obtain ⟨hnodes, hblocks⟩ := ih hrest
    refine ⟨.cons (mayPrecede_of_leaf hleaf hrest) hnodes, ?_⟩
    rw [nodes, Node.blocksOfAll, hleaf.blocks_eq_nil]
    exact hblocks
  | block blanks head o inner innerEnd rest ihInner ihRest =>
    obtain ⟨-, -, hinner, -, hrest⟩ := hc
    obtain ⟨hinside, hinsideBlocks⟩ := ihInner hinner
    obtain ⟨hnodes, hblocks⟩ := ihRest hrest
    constructor
    · refine .cons (fun m _ => ?_) hnodes
      cases o <;> trivial
    · rw [nodes, Node.blocksOfAll, Node.blocks_node, List.forall_mem_append, List.forall_mem_cons]
      exact ⟨⟨hinside, hinsideBlocks⟩, hblocks⟩

end Layout

/-- The blocks of a stylesheet that is read strictly are separated. -/
theorem Stylesheet.separated_of_parse {config : ParseConfig} {text : String} {s : Stylesheet}
    (hstrict : config.lenient = false) (h : parse config text = .ok s) :
    ∀ b ∈ s.blocks, Node.Separated b := by
  obtain ⟨c, hc, -, rfl⟩ := (Layout.ofTokens_eq_ok_iff hstrict _).1 h
  obtain ⟨hnodes, hblocks⟩ := Layout.separated_nodes hc
  exact List.forall_mem_cons.2 ⟨hnodes, hblocks⟩

end GradientFallback
