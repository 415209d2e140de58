import GradientFallback.Proofs.Fallback.Decision

/-! # The declaration that the cascade uses

Of several declarations of a background, a style cascade uses the last one that is marked as important,
and the last of all if none is.  A filter is made for the last of all.  So it is made for the
declaration that is used, unless that one is marked and a declaration without a mark follows it.
-/
namespace GradientFallback

/-! ## The last of some declarations -/

/-- Of the declarations among the nodes, `d` is the last one with `P`. -/
structure Node.Last (P : Declaration → Prop) (nodes front : List Node) (d : Declaration)
    (back : List Node) : Prop where
  nodes_eq : nodes = front ++ .declaration d :: back
  holds : P d
  last : ∀ e, .declaration e ∈ back → ¬P e

namespace Node.Last

variable {P : Declaration → Prop} {nodes front front' back back' : List Node} {d d' : Declaration}

theorem exists_of_mem (hmem : .declaration d ∈ nodes) (hd : P d) :
    ∃ front e back, Last P nodes front e back := by
  induction nodes generalizing d with
  | nil => exact absurd hmem List.not_mem_nil
  | cons n nodes ih =>
    by_cases hlater : ∃ e, .declaration e ∈ nodes ∧ P e
    · obtain ⟨e, he, hholds⟩ := hlater
      obtain ⟨front, x, back, h⟩ := ih he hholds
      exact ⟨n :: front, x, back, by rw [h.nodes_eq]; rfl, h.holds, h.last⟩
    · have hlast : ∀ e, .declaration e ∈ nodes → ¬P e := fun e he hholds => hlater ⟨e, he, hholds⟩
      obtain rfl : .declaration d = n :=
        (List.mem_cons.1 hmem).resolve_right fun h => hlast d h hd
      exact ⟨[], d, nodes, rfl, hd, hlast⟩

theorem unique (h : Last P nodes front d back) (h' : Last P nodes front' d' back') :
    front = front' ∧ d = d' ∧ back = back' := by
  obtain ⟨hfront, hd, hback⟩ := append_inj_of_last (P := fun n => ∃ e, n = .declaration e ∧ P e)
    (h.nodes_eq.symm.trans h'.nodes_eq) ⟨d, rfl, h.holds⟩ ⟨d', rfl, h'.holds⟩
    (by rintro _ hmem ⟨e, rfl, he⟩; exact h.last e hmem he)
    (by rintro _ hmem ⟨e, rfl, he⟩; exact h'.last e hmem he)
  exact ⟨hfront, Node.declaration.inj hd, hback⟩

end Node.Last

/-- Of the eligible declarations, the cascade uses the last one that is marked as important, or the
last of all if none is. -/
inductive Node.CascadeUses (nodes front : List Node) (d : Declaration) (back : List Node) : Prop
  | marked (last : Node.Last (fun e => e.IsEligible ∧ e.important = true) nodes front d back)
  | unmarked (none : ∀ e, .declaration e ∈ nodes → e.IsEligible → e.important = false)
      (last : Node.Last Declaration.IsEligible nodes front d back)

theorem Node.exists_cascadeUses {nodes : List Node} {d : Declaration}
    (hmem : .declaration d ∈ nodes) (hd : d.IsEligible) :
    ∃ front e back, Node.CascadeUses nodes front e back := by
  by_cases hmarked : ∃ e, .declaration e ∈ nodes ∧ e.IsEligible ∧ e.important = true
  · obtain ⟨e, he, hholds⟩ := hmarked
    obtain ⟨front, x, back, h⟩ := Node.Last.exists_of_mem
      (P := fun e => e.IsEligible ∧ e.important = true) he hholds
    exact ⟨front, x, back, .marked h⟩
  · obtain ⟨front, x, back, h⟩ := Node.Last.exists_of_mem hmem hd
    refine ⟨front, x, back, .unmarked (fun e he heligible => ?_) h⟩
    exact Bool.eq_false_iff.2 fun hsign => hmarked ⟨e, he, heligible, hsign⟩

/-! ## The declaration that a filter is made for -/

namespace RuleReport

/-- The report on the rule is made for its declaration `d`: the first gradient in it decides, and a
filter is put directly behind it. -/
structure MadeFor (o : Options) (r : Rule) (front : List Node) (d : Declaration)
    (back : List Node) : Prop where
  nodes_eq : r.nodes = front ++ .declaration d :: back
  decided : ∃ gradient count remarks, r.candidate? = some ⟨front.length, d, gradient, count⟩ ∧
    Choice o d gradient count (of o r).outcome remarks
  amended : ∀ filter, (of o r).outcome = .applied filter →
    (of o r).amend r = { r with nodes := Node.graft front d filter back }

variable {o : Options} {r : Rule} {front back : List Node} {d : Declaration}

theorem last_of_candidate? {c : Candidate} (hc : r.candidate? = some c) :
    ∃ front back, Node.Last Declaration.IsEligible r.nodes front c.declaration back ∧
      c.index = front.length := by
  obtain ⟨front, back, hlast, hindex, -⟩ := Rule.lastGradient_of_candidate? hc
  have hholds := c.declaration.holdsGradient_iff.1 hlast.holds
  refine ⟨front, back, ⟨hlast.nodes_eq, hholds, fun e he => ?_⟩, hindex⟩
  rw [← e.holdsGradient_iff]
  exact hlast.last e he

/-- The report is made for the last eligible declaration, marked or not. -/
theorem madeFor_iff (free : ¬r.HasFilter) : MadeFor o r front d back ↔
    Node.Last Declaration.IsEligible r.nodes front d back := by
  constructor
  · intro h
    obtain ⟨gradient, count, -, hc, -⟩ := h.decided
    obtain ⟨front', back', hlast, hindex⟩ := last_of_candidate? hc
    have hsame := h.nodes_eq.symm.trans hlast.nodes_eq
    obtain ⟨rfl, hbehind⟩ := List.append_inj hsame hindex
    obtain ⟨-, rfl⟩ := List.cons.inj hbehind
    exact hlast
  · intro h
    rcases hc : r.candidate? with _ | c
    · have hholds : d.HoldsGradient := d.holdsGradient_iff.2 h.holds
      refine absurd hholds (Rule.not_holdsGradient_of_candidate? hc d ?_)
      rw [h.nodes_eq]
      exact List.mem_append_right front List.mem_cons_self
    · obtain ⟨front', back', hlast, hindex⟩ := last_of_candidate? hc
      obtain ⟨rfl, rfl, rfl⟩ := h.unique hlast
      obtain ⟨index, d, gradient, count⟩ := c
      obtain rfl : index = front.length := hindex
      have hdecided := fullRemarked_of_free (o := o) hc free
      refine ⟨h.nodes_eq, ⟨gradient, count, (fullRemarked o r).2, hc, ?_⟩, fun filter hfilter => ?_⟩
      · rw [of_outcome]
        exact (choice_iff _ _ _).2 hdecided
      · rw [amend_of_applied hfilter hc, Rule.insertAfter, h.nodes_eq, Rule.insertInto_append]
        rfl

/-- A rule without a filter of its own has one made for the declaration that the cascade uses exactly
if no eligible declaration follows that one.  If one does, then the used declaration is marked as
important, and the filter is made for a later one that is not. -/
theorem madeFor_cascade (o : Options) (r : Rule) (free : ¬r.HasFilter) :
    ((∃ d, .declaration d ∈ r.nodes ∧ d.IsEligible) →
      ∃ front d back, Node.CascadeUses r.nodes front d back) ∧
    ∀ front d back, Node.CascadeUses r.nodes front d back →
      (MadeFor o r front d back ↔ ∀ e, .declaration e ∈ back → ¬e.IsEligible) ∧
      ((∃ e, .declaration e ∈ back ∧ e.IsEligible) →
        d.important = true ∧ ∃ between e behind, back = between ++ .declaration e :: behind ∧
          e.important = false ∧ MadeFor o r (front ++ .declaration d :: between) e behind) := by
  refine ⟨fun ⟨d, hmem, hd⟩ => Node.exists_cascadeUses hmem hd, fun front d back uses => ?_⟩
  cases uses with
  | marked last =>
    obtain ⟨hnodes, ⟨heligible, hmarked⟩, hback⟩ := last
    constructor
    · rw [madeFor_iff free]
      exact ⟨fun h => h.last, fun h => ⟨hnodes, heligible, h⟩⟩
    · rintro ⟨e, he, heligible'⟩
      obtain ⟨between, x, behind, hlast⟩ := Node.Last.exists_of_mem he heligible'
      have hmem : .declaration x ∈ back := by
        rw [hlast.nodes_eq]
        exact List.mem_append_right between List.mem_cons_self
      have hunmarked : x.important = false :=
        Bool.eq_false_iff.2 fun hsign => hback x hmem ⟨hlast.holds, hsign⟩
      refine ⟨hmarked, between, x, behind, hlast.nodes_eq, hunmarked, (madeFor_iff free).2 ?_⟩
      refine ⟨?_, hlast.holds, hlast.last⟩
      rw [hnodes, hlast.nodes_eq, List.append_assoc, List.cons_append]
  | unmarked none last =>
    refine ⟨iff_of_true ((madeFor_iff free).2 last) last.last, ?_⟩
    rintro ⟨e, he, heligible⟩
    exact absurd heligible (last.last e he)

/-- A gradient that is marked as important. -/
def markedGradient : Declaration :=
  { Declaration.make "background" "linear-gradient(red, blue)" with
    important := true, marker := some "!important" }

/-- A gradient without a mark. -/
def plainGradient : Declaration := .make "background" "linear-gradient(lime, white)"

def overriddenRule : Rule :=
  { Rule.make "a" with nodes := [.declaration markedGradient, .declaration plainGradient] }

/-- The cascade uses the marked gradient, and the filter is made for the one behind it. -/
theorem madeFor_cascade_overridden : ¬overriddenRule.HasFilter ∧
    Node.CascadeUses overriddenRule.nodes [] markedGradient [.declaration plainGradient] ∧
    ¬MadeFor .default overriddenRule [] markedGradient [.declaration plainGradient] ∧
    MadeFor .default overriddenRule [.declaration markedGradient] plainGradient [] := by
  have free : ¬overriddenRule.HasFilter := by
    rw [Rule.hasFilter_iff]
    decide
  have hmarked : markedGradient.IsEligible := by
    rw [← Declaration.holdsGradient_iff]
    exact ⟨rfl, by decide +kernel⟩
  have hplain : plainGradient.IsEligible := by
    rw [← Declaration.holdsGradient_iff]
    exact ⟨rfl, by decide +kernel⟩
  have uses : Node.CascadeUses overriddenRule.nodes [] markedGradient
      [.declaration plainGradient] := by
    refine .marked ⟨rfl, ⟨hmarked, rfl⟩, fun e he hboth => ?_⟩
    obtain rfl : e = plainGradient := Node.declaration.inj (List.mem_singleton.1 he)
    exact Bool.false_ne_true hboth.2
  have hmem : Node.declaration plainGradient ∈ [.declaration plainGradient] := List.mem_singleton_self _
  obtain ⟨-, hcascade⟩ := madeFor_cascade .default overriddenRule free
  obtain ⟨hiff, hlater⟩ := hcascade _ _ _ uses
  obtain ⟨-, between, e, behind, hback, -, hmade⟩ := hlater ⟨plainGradient, hmem, hplain⟩
  refine ⟨free, uses, fun h => hiff.1 h _ hmem hplain, ?_⟩
  cases between with
  | nil =>
    obtain ⟨hsame, rfl⟩ := List.cons.inj hback
    obtain rfl := Node.declaration.inj hsame
    exact hmade
  | cons n between => exact absurd (List.cons.inj hback).2.symm (by simp)

end RuleReport
end GradientFallback
