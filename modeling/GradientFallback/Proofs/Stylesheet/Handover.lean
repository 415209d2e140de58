import GradientFallback.Proofs.Stylesheet.Blocks
import GradientFallback.Proofs.Stylesheet.Repair

/-! # Declarations put into a block

A declaration that is put behind another one takes over how that one was ended, and that one gets a
semicolon.  All else in the block stays as it was.  So a separated block stays separated, unless the
missing semicolon is not that of the node in front of the new declaration but of an earlier one, or
that node is a statement without a semicolon.
-/
namespace GradientFallback

/-- The node with a semicolon, if it is a declaration. -/
def Node.terminated : Node → Node
  | .declaration d => .declaration { d with semicolon := true }
  | n => n

/-- The declaration ended as the node is, if that is a declaration. -/
def Declaration.endedAs (d : Declaration) : Node → Declaration
  | .declaration e => { d with semicolon := e.semicolon }
  | _ => d

namespace Rule

theorem following_eq (d : Declaration) (n : Node) :
    following d n = [n.terminated, .declaration (d.endedAs n)] := by
  cases n <;> rfl

theorem insertInto_nil (d : Declaration) (index : Nat) : insertInto d index [] = [.declaration d] := by
  cases index <;> rfl

/-- The place behind which a declaration is put is the last one if there are not so many nodes. -/
theorem insertInto_eq (d : Declaration) (n : Node) (front back : List Node) (index : Nat)
    (hplace : front.length = min index ((front ++ n :: back).length - 1)) :
    insertInto d index (front ++ n :: back) =
      front ++ n.terminated :: .declaration (d.endedAs n) :: back := by
  induction front generalizing index with
  | nil =>
    cases back with
    | nil =>
      rw [List.nil_append, insertInto.eq_2, following_eq]
      rfl
    | cons m back =>
      obtain rfl : index = 0 := by
        simp only [List.length_nil, List.nil_append, List.length_cons] at hplace
        omega
      rw [List.nil_append, insertInto, following_eq]
      · rfl
      · exact nofun
  | cons m front ih =>
    simp only [List.length_cons, List.length_append] at hplace
    obtain ⟨index, rfl⟩ : ∃ i, index = i + 1 := ⟨index - 1, by omega⟩
    have hinner : insertInto d index (front ++ n :: back) =
        front ++ n.terminated :: .declaration (d.endedAs n) :: back := by
      apply ih
      simp only [List.length_append, List.length_cons]
      omega
    rw [List.cons_append, insertInto, hinner]
    · rfl
    · simp

end Rule

namespace Node

/-- Only a node that needs no semicolon may stand in front of a declaration. -/
theorem mayPrecede_declaration_iff (n : Node) (d : Declaration) :
    n.MayPrecede (.declaration d) ↔ n.isUnended = false := by
  cases n <;> simp [MayPrecede, isUnended]

/-- With a semicolon a declaration is no more and no less a comment than before. -/
theorem mayPrecede_terminated_iff (n m : Node) :
    n.MayPrecede m.terminated ↔ n.MayPrecede m := by
  cases m <;> cases n <;> simp [MayPrecede, terminated]

/-- A declaration in front of others keeps them apart in its place. -/
theorem mayPrecede_endedAs (n m : Node) {d : Declaration} (hd : d.semicolon = true)
    (h : n.MayPrecede m) : (declaration (d.endedAs n)).MayPrecede m := by
  cases n with
  | declaration e => exact h
  | _ => exact .inl hd

theorem terminated_mayPrecede (n m : Node) (h : n.MayPrecede m) : n.terminated.MayPrecede m := by
  cases n with
  | declaration e => exact .inl rfl
  | _ => exact h

/-- Behind a node that may precede the others a new declaration keeps the block separated if and
only if it hands over a semicolon, or none is missing in front of it. -/
theorem separated_insert_iff {front back : List Node} {n : Node} {d : Declaration}
    (hd : d.semicolon = true) (h : Separated (front ++ n :: back)) :
    Separated (front ++ n.terminated :: declaration (d.endedAs n) :: back) ↔
      n.declaration?.isSome = true ∨ ∀ m ∈ front ++ [n], m.isUnended = false := by
  rw [separated_iff_pairwise, List.pairwise_append, List.pairwise_cons] at h
  obtain ⟨hfront, ⟨hn, hback⟩, hacross⟩ := h
  have hnew : ∀ m ∈ back, (declaration (d.endedAs n)).MayPrecede m :=
    fun m hm => mayPrecede_endedAs n m hd (hn m hm)
  have hended : ∀ m ∈ back, n.terminated.MayPrecede m :=
    fun m hm => terminated_mayPrecede n m (hn m hm)
  have hbehind : ∀ m ∈ front, m.MayPrecede n.terminated ∧ ∀ k ∈ back, m.MayPrecede k := by
    intro m hm
    rw [mayPrecede_terminated_iff]
    exact List.forall_mem_cons.1 (hacross m hm)
  have hreduced : Separated (front ++ n.terminated :: declaration (d.endedAs n) :: back) ↔
      n.terminated.isUnended = false ∧ ∀ m ∈ front, m.isUnended = false := by
    simp only [separated_iff_pairwise, List.pairwise_append, List.pairwise_cons,
      List.forall_mem_cons, mayPrecede_declaration_iff, hfront, hback, true_and, and_true]
    constructor
    · rintro ⟨⟨⟨hterminated, -⟩, -⟩, hall⟩
      exact ⟨hterminated, fun m hm => (hall m hm).2.1⟩
    · rintro ⟨hterminated, hall⟩
      exact ⟨⟨⟨hterminated, hended⟩, hnew⟩, fun m hm =>
        ⟨(hbehind m hm).1, hall m hm, (hbehind m hm).2⟩⟩
  rw [hreduced, List.forall_mem_append, List.forall_mem_singleton]
  cases n with
  | declaration e =>
    refine iff_of_true ⟨rfl, fun m hm => ?_⟩ (.inl rfl)
    exact (mayPrecede_declaration_iff m e).1 (hacross m hm _ List.mem_cons_self)
  | rule head nodes after => simp [terminated, declaration?, and_comm]
  | atRule head nodes after => simp [terminated, declaration?, and_comm]
  | statement head semicolon => simp [terminated, declaration?, and_comm]
  | comment c => simp [terminated, declaration?, and_comm]

end Node

/-- A declaration with a semicolon is put into an empty block alone, and else directly behind the node
at the place, or behind the last one; nothing else is changed but who has that node's semicolon.  A
separated block stays separated if and only if the node is a declaration or no semicolon is missing
up to it. -/
theorem Rule.insertAfter_separated {r : Rule} (hr : Node.Separated r.nodes) (index : Nat)
    {d : Declaration} (hd : d.semicolon = true) :
    (r.nodes = [] ∧ r.insertAfter index d = { r with nodes := [.declaration d] } ∧
      Node.Separated (r.insertAfter index d).nodes) ∨
    ∃ front n back, r.nodes = front ++ n :: back ∧
      front.length = min index (r.nodes.length - 1) ∧
      r.insertAfter index d =
        { r with nodes := front ++ n.terminated :: .declaration (d.endedAs n) :: back } ∧
      (Node.Separated (r.insertAfter index d).nodes ↔
        n.declaration?.isSome = true ∨ ∀ m ∈ front ++ [n], m.isUnended = false) := by
  obtain ⟨head, nodes, after⟩ := r
  by_cases hnil : nodes = []
  · subst hnil
    have halone : insertAfter ⟨head, [], after⟩ index d = ⟨head, [.declaration d], after⟩ := by
      rw [insertAfter, insertInto_nil]
    rw [halone]
    exact .inl ⟨rfl, rfl, .cons (List.forall_mem_nil _) Node.separated_nil⟩
  · have hlt : min index (nodes.length - 1) < nodes.length := by
      have hpos := List.length_pos_iff.2 hnil
      omega
    obtain ⟨front, n, back, rfl, hplace⟩ : ∃ front n back, nodes = front ++ n :: back ∧
        front.length = min index (nodes.length - 1) := by
      refine ⟨nodes.take _, nodes[min index (nodes.length - 1)],
        nodes.drop (min index (nodes.length - 1) + 1), ?_, List.length_take_of_le hlt.le⟩
      rw [List.getElem_cons_drop, List.take_append_drop]
    have hinto := insertInto_eq d n front back index hplace
    refine .inr ⟨front, n, back, rfl, hplace, ?_, ?_⟩
    · rw [insertAfter, hinto]
    · rw [insertAfter, hinto]
      exact Node.separated_insert_iff hd hr

/-- A declaration without a semicolon hands its place at the end over, in front of a comment. -/
theorem Rule.insertAfter_separated_last :
    let first : Declaration := { Declaration.make "b" "c" with semicolon := false }
    let r : Rule := { Rule.make "a" with nodes := [.declaration first, .comment ⟨"d", .origin, ""⟩] }
    Node.Separated r.nodes ∧ (Declaration.make "e" "f").semicolon = true ∧
      (r.insertAfter 0 (Declaration.make "e" "f")).print.toList = "a \x7bb: c;e: f/*d*/\n\x7d".toList ∧
      Node.Separated (r.insertAfter 0 (Declaration.make "e" "f")).nodes := by
  intro first r
  have hr : Node.Separated r.nodes :=
    .cons (List.forall_mem_singleton.2 (.inr ⟨_, rfl⟩))
      (.cons (List.forall_mem_nil _) Node.separated_nil)
  refine ⟨hr, rfl, rfl, ?_⟩
  rcases insertAfter_separated hr 0 (d := .make "e" "f") rfl with
    ⟨hnil, -⟩ | ⟨front, n, back, hnodes, hplace, -, hiff⟩
  · exact absurd hnil nofun
  · obtain rfl : front = [] := List.length_eq_zero_iff.1 hplace
    obtain ⟨rfl, -⟩ := List.cons.inj hnodes
    exact hiff.2 (.inl rfl)

end GradientFallback
