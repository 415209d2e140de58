import GradientFallback.Fallback.Rule
import Mathlib.Data.List.Basic

/-! # The declaration that a filter is made for

The candidate of a rule is its last declaration of a background that holds a gradient.  Nothing but
the declarations of the rule itself, and their places among its nodes, decides about it.
-/
namespace GradientFallback

/-- The declaration sets a background to a value with linear gradients. -/
def Declaration.HoldsGradient (d : Declaration) : Prop :=
  isGradientProperty d.property = true ∧ gradientsOf d.value ≠ []

/-- The nodes hold the declaration `d`, and no gradient stands behind it. -/
structure Node.LastGradient (nodes front : List Node) (d : Declaration) (back : List Node) :
    Prop where
  nodes_eq : nodes = front ++ .declaration d :: back
  holds : d.HoldsGradient
  last : ∀ e, Node.declaration e ∈ back → ¬e.HoldsGradient

theorem Node.declaration_of_declaration? {n : Node} {d : Declaration}
    (h : n.declaration? = some d) : n = .declaration d := by
  cases n <;> simp_all [Node.declaration?]

theorem Node.LastGradient.mem {nodes front back : List Node} {d : Declaration}
    (h : Node.LastGradient nodes front d back) : .declaration d ∈ nodes := by
  rw [h.nodes_eq]
  exact List.mem_append_right front List.mem_cons_self

theorem Rule.mem_declarations {r : Rule} {d : Declaration} :
    d ∈ r.declarations ↔ .declaration d ∈ r.nodes := by
  rw [declarations, List.mem_filterMap]
  constructor
  · rintro ⟨n, hn, hd⟩
    rwa [Node.declaration_of_declaration? hd] at hn
  · exact fun h => ⟨_, h, rfl⟩

theorem getLast?_filterMap_eq_some {α β : Type} {f : α → Option β} {xs : List α} {y : β}
    (h : (xs.filterMap f).getLast? = some y) :
    ∃ front x back, xs = front ++ x :: back ∧ f x = some y ∧ ∀ z ∈ back, f z = none := by
  rw [List.getLast?_eq_head?_reverse, ← List.filterMap_reverse, List.head?_filterMap,
    List.findSome?_eq_some_iff] at h
  obtain ⟨back, x, front, hxs, hx, hback⟩ := h
  refine ⟨front.reverse, x, back.reverse, ?_, hx, fun z hz => hback z (List.mem_reverse.1 hz)⟩
  have hsplit := congrArg List.reverse hxs
  simpa using hsplit

theorem zipIdx_eq_append {α : Type} {xs : List α} {front back : List (α × Nat)} {x : α × Nat}
    (h : xs.zipIdx = front ++ x :: back) :
    xs = front.map Prod.fst ++ x.1 :: back.map Prod.fst ∧ x.2 = front.length := by
  constructor
  · have hfst := congrArg (List.map Prod.fst) h
    rw [List.zipIdx_map_fst] at hfst
    simpa using hfst
  · have hat : xs.zipIdx[front.length]? = some x := by rw [h]; simp
    rw [List.getElem?_zipIdx, Option.map_eq_some_iff] at hat
    obtain ⟨a, -, hx⟩ := hat
    rw [← hx]
    exact Nat.zero_add _

namespace Candidate

/-- The candidate that a node makes at its place. -/
def of? (declaration? : Option Declaration) (index : Nat) : Option Candidate :=
  declaration?.bind fun d =>
    if isGradientProperty d.property then
      match gradientsOf d.value with
      | [] => none
      | g :: gs => some ⟨index, d, g, gs.length + 1⟩
    else none

theorem of?_eq_some {n : Option Declaration} {index : Nat} {c : Candidate}
    (h : of? n index = some c) :
    n = some c.declaration ∧ c.index = index ∧ c.declaration.HoldsGradient ∧
      ∃ others, gradientsOf c.declaration.value = c.gradient :: others ∧
        c.count = others.length + 1 := by
  cases n with
  | none => exact absurd h nofun
  | some d =>
    simp only [of?, Option.bind_some] at h
    split at h
    · next hproperty =>
      split at h
      · exact absurd h nofun
      · next g gs hgradients =>
        cases h
        refine ⟨rfl, rfl, ⟨hproperty, ?_⟩, gs, hgradients, rfl⟩
        rw [hgradients]
        exact List.cons_ne_nil g gs
    · exact absurd h nofun

theorem of?_eq_none {n : Option Declaration} {index : Nat} (h : of? n index = none) :
    ∀ d, n = some d → ¬d.HoldsGradient := by
  rintro d rfl ⟨hproperty, hgradients⟩
  simp only [of?, Option.bind_some, hproperty, if_true] at h
  split at h
  · next hnil => exact hgradients hnil
  · exact absurd h nofun

end Candidate

namespace Rule

/-- Only the declarations and their places decide about the candidate. -/
theorem candidate?_eq (r : Rule) :
    r.candidate? = ((r.nodes.map Node.declaration?).zipIdx.filterMap
      fun n => Candidate.of? n.1 n.2).getLast? := by
  rw [candidate?, placesOf, List.filterMap_map, List.filterMap_filter, List.zipIdx_map,
    List.filterMap_map]
  congr 1
  apply List.filterMap_congr
  rintro ⟨n, index⟩ hn
  have hat : r.nodes[index]? = some n := List.mk_mem_zipIdx_iff_getElem?.1 hn
  simp only [Function.comp_apply, Candidate.at?, Rule.declaration?, hat, Option.bind_some,
    Candidate.of?, Prod.map_fst, Prod.map_snd, id_eq]
  cases n.declaration? with
  | none => rfl
  | some d =>
    by_cases hproperty : isGradientProperty d.property = true
    · exact (if_pos hproperty).trans (if_pos hproperty).symm
    · simp [hproperty]

theorem candidate?_congr {r r' : Rule}
    (h : r.nodes.map Node.declaration? = r'.nodes.map Node.declaration?) :
    r.candidate? = r'.candidate? := by
  rw [candidate?_eq, candidate?_eq, h]

/-- A candidate is the last declaration with a gradient, at its place, with its first gradient. -/
theorem lastGradient_of_candidate? {r : Rule} {c : Candidate} (h : r.candidate? = some c) :
    ∃ front back, Node.LastGradient r.nodes front c.declaration back ∧ c.index = front.length ∧
      ∃ others, gradientsOf c.declaration.value = c.gradient :: others ∧
        c.count = others.length + 1 := by
  rw [candidate?_eq] at h
  obtain ⟨front, ⟨n, index⟩, back, hzip, hn, hback⟩ := getLast?_filterMap_eq_some h
  obtain ⟨hmap, hindex⟩ := zipIdx_eq_append hzip
  obtain ⟨rfl, hplace, hholds, hgradients⟩ := Candidate.of?_eq_some hn
  obtain ⟨nodesFront, nodesMore, hnodes, hfront, hmore⟩ := List.map_eq_append_iff.1 hmap
  obtain ⟨m, nodesBack, rfl, hm, hback'⟩ := List.map_eq_cons_iff.1 hmore
  obtain rfl : m = .declaration c.declaration := Node.declaration_of_declaration? hm
  refine ⟨nodesFront, nodesBack, ⟨hnodes, hholds, fun e he => ?_⟩, ?_, hgradients⟩
  · have hmem : some e ∈ back.map Prod.fst := by
      rw [← hback']
      exact List.mem_map_of_mem he
    obtain ⟨z, hz, hze⟩ := List.mem_map.1 hmem
    exact Candidate.of?_eq_none (hback z hz) e hze
  · rw [hplace, hindex]
    have hlength := congrArg List.length hfront
    simpa using hlength.symm

theorem not_holdsGradient_of_candidate? {r : Rule} (h : r.candidate? = none) :
    ∀ d, Node.declaration d ∈ r.nodes → ¬d.HoldsGradient := by
  intro d hd
  rw [candidate?_eq, List.getLast?_eq_none_iff, List.filterMap_eq_nil_iff] at h
  have hmem : some d ∈ r.nodes.map Node.declaration? := List.mem_map_of_mem hd
  obtain ⟨index, hlt, hat⟩ := List.getElem_of_mem hmem
  exact Candidate.of?_eq_none (h (some d, index) (List.mk_mem_zipIdx_iff_getElem?.2
    (List.getElem?_eq_some_iff.2 ⟨hlt, hat⟩))) d rfl

end Rule
end GradientFallback
