import GradientFallback.Proofs.Fallback.Insertion
import GradientFallback.Proofs.Stylesheet.Placing

/-! # What decides about a filter

Whether a rule gets a filter depends only on the properties and values of its declarations, in their
order among its nodes.  A rule with a filter of its own gets none.
-/
namespace GradientFallback

/-- The property and the value of a declaration. -/
def Node.content (n : Node) : Option (String × String) :=
  n.declaration?.map fun d => (d.property, d.value)

namespace Candidate

/-- What of a candidate decides about its filter. -/
def gist (c : Candidate) : String × Nat := (c.gradient, c.count)

/-- The gist of the candidate that a declaration with the given property and value makes. -/
def gistOf? (content? : Option (String × String)) : Option (String × Nat) :=
  content?.bind fun d =>
    if isGradientProperty d.1 then
      match gradientsOf d.2 with
      | [] => none
      | g :: gs => some (g, gs.length + 1)
    else none

theorem gist_of? (n : Node) (index : Nat) :
    (of? n.declaration? index).map gist = gistOf? n.content := by
  rcases hd : n.declaration? with _ | d
  · simp [of?, gistOf?, Node.content, hd]
  · simp only [of?, gistOf?, Node.content, hd, Option.bind_some, Option.map_some]
    split
    · rcases gradientsOf d.value with _ | ⟨g, gs⟩ <;> rfl
    · rfl

end Candidate

namespace Rule

theorem gist_candidate? (r : Rule) :
    r.candidate?.map Candidate.gist =
      ((r.nodes.map Node.content).filterMap Candidate.gistOf?).getLast? := by
  rw [candidate?_eq, ← List.getLast?_map, List.map_filterMap, List.filterMap_map, List.zipIdx_map,
    List.filterMap_map]
  congr 1
  have hzip : r.nodes.filterMap (Candidate.gistOf? ∘ Node.content) =
      r.nodes.zipIdx.filterMap fun n => Candidate.gistOf? n.1.content := by
    conv_lhs => rw [← List.zipIdx_map_fst 0 r.nodes, List.filterMap_map]
    rfl
  rw [hzip]
  exact List.filterMap_congr fun n _ => Candidate.gist_of? n.1 n.2

theorem declares_eq (r : Rule) (p : String → Bool) :
    r.declares p = (r.nodes.map Node.content).any fun d => d.any fun d => p d.1 := by
  rw [declares, declarations, List.any_filterMap, List.any_map]
  congr 1
  funext n
  rcases hd : n.declaration? with _ | d <;> simp [Node.content, hd]

end Rule

namespace RuleReport

theorem isApplied_eq (o : Options) (r : Rule) :
    (of o r).isApplied = match r.candidate? with
      | none => false
      | some c => !r.declares isFilterProperty &&
        RuleReport.isApplied ⟨(ofCandidate o c).1, []⟩ := by
  rw [isApplied, of_outcome, full]
  rcases r.candidate? with _ | c
  · rfl
  · by_cases hfilter : r.declares isFilterProperty = true
    · simp [hfilter]
    · simp only [hfilter]
      rfl

theorem ofCandidate_congr (o : Options) {c c' : Candidate} (h : c.gist = c'.gist) :
    ofCandidate o c = ofCandidate o c' := by
  simp only [Candidate.gist, Prod.mk.injEq] at h
  simp only [ofCandidate, h.1, h.2]

/-- Rules with the same declarations in the same places are treated in the same way. -/
theorem isApplied_congr (o : Options) {r r' : Rule}
    (h : r.nodes.map Node.content = r'.nodes.map Node.content) :
    (of o r).isApplied = (of o r').isApplied := by
  have hgist : r.candidate?.map Candidate.gist = r'.candidate?.map Candidate.gist := by
    rw [Rule.gist_candidate?, Rule.gist_candidate?, h]
  rw [isApplied_eq, isApplied_eq, Rule.declares_eq, Rule.declares_eq, h]
  rcases hc : r.candidate? with _ | c
  · rcases hc' : r'.candidate? with _ | c'
    · rfl
    · rw [hc, hc'] at hgist
      exact absurd hgist nofun
  · rcases hc' : r'.candidate? with _ | c'
    · rw [hc, hc'] at hgist
      exact absurd hgist nofun
    · rw [hc, hc', Option.map_some, Option.map_some, Option.some.injEq] at hgist
      simp only [ofCandidate_congr o hgist]

/-- A rule with a filter of its own gets none. -/
theorem isApplied_of_declares (o : Options) {r : Rule}
    (h : r.declares isFilterProperty = true) : (of o r).isApplied = false := by
  rw [isApplied_eq, h]
  rcases r.candidate? with _ | c <;> rfl

theorem not_declares_of_isApplied {o : Options} {r : Rule} (h : (of o r).isApplied = true) :
    r.declares isFilterProperty = false := by
  rw [← Bool.not_eq_true]
  intro hdeclares
  rw [isApplied_of_declares o hdeclares] at h
  exact Bool.false_ne_true h

end RuleReport

namespace Node

variable (o : Options)

theorem content_unplaced (n : Node) : n.unplaced.content = n.content := by
  cases n <;> rfl

/-- A rule has as many filters to come as another with the same contents. -/
theorem filterCount_rule_congr {head head' : RuleHead} {nodes nodes' : List Node}
    {after after' : String} (hcount : filterCount o nodes = filterCount o nodes')
    (hcontent : nodes.map content = nodes'.map content) :
    filterCount o [.rule head nodes after] = filterCount o [.rule head' nodes' after'] := by
  have happlied : (RuleReport.of o ⟨head, nodes, after⟩).isApplied =
      (RuleReport.of o ⟨head', nodes', after'⟩).isApplied := RuleReport.isApplied_congr o hcontent
  rw [filterCount_rule, filterCount_rule, hcount, happlied]

theorem filterCount_map {nodes : List Node} {f : Node → Node}
    (h : ∀ n ∈ nodes, filterCount o [f n] = filterCount o [n]) :
    filterCount o (nodes.map f) = filterCount o nodes := by
  induction nodes with
  | nil => rfl
  | cons n nodes ih =>
    rw [List.map_cons, filterCount_cons, filterCount_cons o n, h n List.mem_cons_self,
      ih fun m hm => h m (List.mem_cons_of_mem n hm)]

/-- Places do not decide about filters. -/
theorem filterCount_unplaced (n : Node) : filterCount o [n.unplaced] = filterCount o [n] := by
  induction n using induct with
  | rule head nodes after ih =>
    rw [unplaced, unplacedAll_eq_map]
    refine filterCount_rule_congr o (filterCount_map o ih) ?_
    rw [List.map_map]
    exact List.map_congr_left fun n _ => content_unplaced n
  | atRule head nodes after ih =>
    rw [unplaced, unplacedAll_eq_map, filterCount_atRule, filterCount_atRule, filterCount_map o ih]
  | statement => rfl
  | declaration => rfl
  | comment => rfl

theorem filterCount_unplacedAll (nodes : List Node) :
    filterCount o (unplacedAll nodes) = filterCount o nodes := by
  rw [unplacedAll_eq_map]
  exact filterCount_map o fun n _ => filterCount_unplaced o n

end Node
end GradientFallback
