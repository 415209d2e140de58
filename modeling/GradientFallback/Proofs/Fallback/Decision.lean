import GradientFallback.Proofs.Fallback.Insertion

/-! # How a rule is decided

The last declaration of a background with a gradient and the first gradient in it decide about a
rule.  A rule without one is passed over; one with a filter of its own keeps it; otherwise the
filter that is made for the gradient, or the failure to make one, and the options decide.  Every
rule falls under exactly one of these cases.
-/
namespace GradientFallback

/-! ## The source of a filter -/

/-- The text starts like a linear gradient. -/
def StartsGradient (part : String) : Prop := "linear-gradient".toList <+: part.toList

instance (part : String) : Decidable (StartsGradient part) :=
  inferInstanceAs (Decidable ("linear-gradient".toList <+: part.toList))

/-- The declaration sets a background, and a part of its value starts like a linear gradient. -/
structure Declaration.IsEligible (d : Declaration) : Prop where
  property : d.property = "background" ∨ d.property = "background-image"
  part : ∃ part ∈ Comma.split d.value, StartsGradient part

/-- The last eligible declaration of a rule, the first gradient in it and their number. -/
structure Rule.Source (r : Rule) (d : Declaration) (gradient : String) (count : Nat) : Prop where
  property : d.property = "background" ∨ d.property = "background-image"
  last : ∃ front back, r.nodes = front ++ .declaration d :: back ∧
    ∀ e, .declaration e ∈ back → ¬e.IsEligible
  first : ∃ front back, Comma.split d.value = front ++ gradient :: back ∧
    ∀ part ∈ front, ¬StartsGradient part
  starts : StartsGradient gradient
  count_eq : count = (Comma.split d.value).countP fun part => StartsGradient part

/-- The rule itself declares a filter. -/
def Rule.HasFilter (r : Rule) : Prop :=
  ∃ e, .declaration e ∈ r.nodes ∧ (e.property = "filter" ∨ e.property = "-ms-filter")

theorem isGradientProperty_iff (property : String) :
    isGradientProperty property = true ↔ property = "background" ∨ property = "background-image" := by
  simp [isGradientProperty]

theorem isFilterProperty_iff (property : String) :
    isFilterProperty property = true ↔ property = "filter" ∨ property = "-ms-filter" := by
  simp [isFilterProperty]

theorem gradientsOf_eq (value : String) :
    gradientsOf value = (Comma.split value).filter fun part => StartsGradient part := by
  apply List.filter_congr
  intro part _
  simp [StartsGradient, ← List.isPrefixOf_iff_prefix]

theorem Declaration.holdsGradient_iff (d : Declaration) : d.HoldsGradient ↔ d.IsEligible := by
  have hvalue : gradientsOf d.value ≠ [] ↔ ∃ part ∈ Comma.split d.value, StartsGradient part := by
    simp [gradientsOf_eq]
  rw [HoldsGradient, isGradientProperty_iff, hvalue]
  exact ⟨fun h => ⟨h.1, h.2⟩, fun h => ⟨h.property, h.part⟩⟩

/-- A list is cut in one way at the last element with a property. -/
theorem append_inj_of_last {α : Type} {P : α → Prop} {front back front' back' : List α} {x y : α}
    (h : front ++ x :: back = front' ++ y :: back') (hx : P x) (hy : P y)
    (hback : ∀ z ∈ back, ¬P z) (hback' : ∀ z ∈ back', ¬P z) :
    front = front' ∧ x = y ∧ back = back' := by
  induction front generalizing front' with
  | nil =>
    cases front' with
    | nil => exact ⟨rfl, List.cons.inj h⟩
    | cons z front' =>
      have hmem : y ∈ back := by
        rw [(List.cons.inj h).2]
        exact List.mem_append_right front' List.mem_cons_self
      exact absurd hy (hback y hmem)
  | cons z front ih =>
    cases front' with
    | nil =>
      have hmem : x ∈ back' := by
        rw [← (List.cons.inj h).2]
        exact List.mem_append_right front List.mem_cons_self
      exact absurd hx (hback' x hmem)
    | cons z' front' =>
      obtain ⟨rfl, hothers⟩ := List.cons.inj h
      obtain ⟨rfl, hsame⟩ := ih hothers
      exact ⟨rfl, hsame⟩

namespace Rule

variable {r : Rule} {d d' : Declaration} {gradient gradient' : String} {count count' : Nat}

theorem Source.gradientsOf (h : r.Source d gradient count) :
    ∃ others, GradientFallback.gradientsOf d.value = gradient :: others ∧
      count = others.length + 1 := by
  obtain ⟨front, back, hsplit, hfront⟩ := h.first
  have hnone : front.filter (fun part => StartsGradient part) = [] := by
    simpa [List.filter_eq_nil_iff] using hfront
  have hvalue : GradientFallback.gradientsOf d.value =
      gradient :: back.filter fun part => StartsGradient part := by
    rw [gradientsOf_eq, hsplit, List.filter_append, hnone, List.nil_append]
    exact List.filter_cons_of_pos (decide_eq_true h.starts)
  refine ⟨_, hvalue, ?_⟩
  rw [h.count_eq, List.countP_eq_length_filter, ← gradientsOf_eq, hvalue, List.length_cons]

theorem Source.isEligible (h : r.Source d gradient count) : d.IsEligible := by
  obtain ⟨front, back, hsplit, -⟩ := h.first
  refine ⟨h.property, gradient, ?_, h.starts⟩
  rw [hsplit]
  exact List.mem_append_right front List.mem_cons_self

theorem Source.mem (h : r.Source d gradient count) : .declaration d ∈ r.nodes := by
  obtain ⟨front, back, hnodes, -⟩ := h.last
  rw [hnodes]
  exact List.mem_append_right front List.mem_cons_self

theorem Source.unique (h : r.Source d gradient count) (h' : r.Source d' gradient' count') :
    d = d' ∧ gradient = gradient' ∧ count = count' := by
  obtain ⟨front, back, hnodes, hback⟩ := h.last
  obtain ⟨front', back', hnodes', hback'⟩ := h'.last
  have hnode : Node.declaration d = .declaration d' := by
    refine (append_inj_of_last (P := fun n => ∃ e, n = Node.declaration e ∧ e.IsEligible)
      (hnodes.symm.trans hnodes') ⟨d, rfl, h.isEligible⟩ ⟨d', rfl, h'.isEligible⟩ ?_ ?_).2.1
    · rintro _ hmem ⟨e, rfl, he⟩
      exact hback e hmem he
    · rintro _ hmem ⟨e, rfl, he⟩
      exact hback' e hmem he
  obtain rfl : d = d' := Node.declaration.inj hnode
  obtain ⟨others, hvalue, rfl⟩ := h.gradientsOf
  obtain ⟨others', hvalue', rfl⟩ := h'.gradientsOf
  obtain ⟨rfl, rfl⟩ := List.cons.inj (hvalue.symm.trans hvalue')
  exact ⟨rfl, rfl, rfl⟩

theorem source_of_candidate? {c : Candidate} (h : r.candidate? = some c) :
    r.Source c.declaration c.gradient c.count := by
  obtain ⟨front, back, hlast, -, others, hvalue, hcount⟩ := lastGradient_of_candidate? h
  rw [gradientsOf_eq] at hvalue
  have hfirst := congrArg List.head? hvalue
  rw [List.head?_filter, List.head?_cons, List.find?_eq_some_iff_append] at hfirst
  obtain ⟨hstarts, before, behind, hsplit, hbefore⟩ := hfirst
  refine ⟨(isGradientProperty_iff _).1 hlast.holds.1, ⟨front, back, hlast.nodes_eq, fun e he => ?_⟩,
    ⟨before, behind, hsplit, fun part hpart => ?_⟩, of_decide_eq_true hstarts, ?_⟩
  · rw [← e.holdsGradient_iff]
    exact hlast.last e he
  · have hpart := hbefore part hpart
    rw [Bool.not_eq_true', decide_eq_false_iff_not] at hpart
    exact hpart
  · rw [List.countP_eq_length_filter, hvalue, hcount, List.length_cons]

/-- The candidate of a rule is its source. -/
theorem Source.candidate? (h : r.Source d gradient count) :
    ∃ c, r.candidate? = some c ∧ c.declaration = d ∧ c.gradient = gradient ∧ c.count = count := by
  rcases hc : r.candidate? with _ | c
  · have hholds : d.HoldsGradient := d.holdsGradient_iff.2 h.isEligible
    exact absurd hholds (not_holdsGradient_of_candidate? hc d h.mem)
  · obtain ⟨hd, hgradient, hcount⟩ := (source_of_candidate? hc).unique h
    exact ⟨c, rfl, hd, hgradient, hcount⟩

theorem hasFilter_iff : r.HasFilter ↔ r.declares isFilterProperty = true := by
  rw [declares, List.any_eq_true]
  constructor
  · rintro ⟨e, he, hproperty⟩
    exact ⟨e, mem_declarations.2 he, (isFilterProperty_iff _).2 hproperty⟩
  · rintro ⟨e, he, hproperty⟩
    exact ⟨e, mem_declarations.1 he, (isFilterProperty_iff _).1 hproperty⟩

end Rule

/-! ## The decision -/

/-- What a warning shows: its kind and its message, what it is about and where that stands. -/
structure Remark where
  kind : DiagnosticKind
  message : String
  subject : Subject
  location : Location

def Diagnostic.remark (d : Diagnostic) : Remark :=
  ⟨d.finding.kind, d.finding.message, d.subject, d.location⟩

namespace Remark

/-- A remark about a rule. -/
def onRule (r : Rule) (kind : DiagnosticKind) (message : String) : Remark :=
  ⟨kind, message, .rule r.head.selector, r.head.location⟩

/-- A remark about a declaration. -/
def onDeclaration (d : Declaration) (kind : DiagnosticKind) (message : String) : Remark :=
  ⟨kind, message, .declaration d.property, d.location⟩

/-- The remark on a declaration with several gradients. -/
def several (d : Declaration) (count : Nat) : List Remark :=
  if 1 < count then
    [onDeclaration d .policy
      "IE filter doesn't support multiple gradients, we pick the first as fallback."]
  else []

end Remark

open Remark

/-- What becomes of a rule whose source is the given gradient of the declaration `d`, one of
`count`, and all there is to remark, in the order of the remarks. -/
inductive Choice (o : Options) (d : Declaration) (gradient : String) (count : Nat) :
    RuleOutcome → List Remark → Prop
  | invalidGradient {e : GradientError} (fails : LegacyFilter.ofText gradient = .error e) :
      Choice o d gradient count .invalidGradient
        (several d count ++ [onDeclaration d e.kind e.message])
  | skippedMultiColor {filter : LegacyFilter} (made : LegacyFilter.ofText gradient = .ok filter)
      (colors : o.skipMultiColor = true ∧ filter.isMultiColor = true) :
      Choice o d gradient count .skippedMultiColor (several d count)
  | skippedFallback {filter : LegacyFilter} (made : LegacyFilter.ofText gradient = .ok filter)
      (colors : ¬(o.skipMultiColor = true ∧ filter.isMultiColor = true))
      (direction : o.angleFallback = false ∧ filter.approximation.isSome = true) :
      Choice o d gradient count .skippedFallback (several d count)
  | applied {filter : LegacyFilter} (made : LegacyFilter.ofText gradient = .ok filter)
      (colors : ¬(o.skipMultiColor = true ∧ filter.isMultiColor = true))
      (direction : ¬(o.angleFallback = false ∧ filter.approximation.isSome = true)) :
      Choice o d gradient count (.applied filter.value) (several d count ++
        filter.approximation.toList.map fun a => onDeclaration d .policy a.message)

/-- The outcome for a rule and all there is to remark. -/
inductive Decision (o : Options) (r : Rule) : RuleOutcome → List Remark → Prop
  | noGradient (none : ∀ d, .declaration d ∈ r.nodes → ¬d.IsEligible) : Decision o r .noGradient []
  | existingFilter {d : Declaration} {gradient : String} {count : Nat}
      (source : r.Source d gradient count) (own : r.HasFilter) :
      Decision o r .existingFilter [onRule r .policy
        "The `filter` declaration already exists, we have skipped this rule."]
  | chosen {d : Declaration} {gradient : String} {count : Nat} {outcome : RuleOutcome}
      {remarks : List Remark} (source : r.Source d gradient count) (free : ¬r.HasFilter)
      (choice : Choice o d gradient count outcome remarks) : Decision o r outcome remarks

namespace RuleReport

variable {o : Options} {r : Rule}

/-- The remarks that the findings about a declaration make. -/
def remarksOn (d : Declaration) (findings : List Finding) : List Remark :=
  findings.map fun f => onDeclaration d f.kind f.message

theorem remarksOn_append (d : Declaration) (findings more : List Finding) :
    remarksOn d (findings ++ more) = remarksOn d findings ++ remarksOn d more := List.map_append

theorem remarksOn_several (d : Declaration) (count : Nat) :
    remarksOn d (if count > 1 then [.multipleGradients] else []) = several d count := by
  unfold several
  split <;> rfl

theorem remarksOn_approximation (d : Declaration) (approximation : Option Approximation) :
    remarksOn d (approximation.toList.map .approximated) =
      approximation.toList.map fun a => onDeclaration d .policy a.message := by
  cases approximation <;> rfl

/-- What becomes of a rule, with the remarks that are made. -/
def remarked (d : Declaration) (decided : RuleOutcome × List Finding) :
    RuleOutcome × List Remark :=
  (decided.1, remarksOn d decided.2)

theorem remarked_of_error {c : Candidate} {e : GradientError}
    (fails : LegacyFilter.ofText c.gradient = .error e) :
    remarked c.declaration (ofCandidate o c) = (.invalidGradient,
      several c.declaration c.count ++ [onDeclaration c.declaration e.kind e.message]) := by
  rw [ofCandidate, fails, remarked, remarksOn_append, remarksOn_several]
  rfl

theorem remarked_of_ok {c : Candidate} {filter : LegacyFilter}
    (made : LegacyFilter.ofText c.gradient = .ok filter) :
    remarked c.declaration (ofCandidate o c) =
      if o.skipMultiColor = true ∧ filter.isMultiColor = true then
        (.skippedMultiColor, several c.declaration c.count)
      else if o.angleFallback = false ∧ filter.approximation.isSome = true then
        (.skippedFallback, several c.declaration c.count)
      else (.applied filter.value, several c.declaration c.count ++
        filter.approximation.toList.map fun a => onDeclaration c.declaration .policy a.message) := by
  rw [ofCandidate, made]
  simp only [Bool.and_eq_true, Bool.not_eq_true']
  split
  · rw [remarked, remarksOn_several]
  split
  · rw [remarked, remarksOn_several]
  · rw [remarked, remarksOn_append, remarksOn_several, remarksOn_approximation]

/-- A candidate leaves one choice, the one that is made for it. -/
theorem choice_iff (c : Candidate) (outcome : RuleOutcome) (remarks : List Remark) :
    Choice o c.declaration c.gradient c.count outcome remarks ↔
      (outcome, remarks) = remarked c.declaration (ofCandidate o c) := by
  constructor
  · intro h
    cases h with
    | invalidGradient fails => rw [remarked_of_error fails]
    | skippedMultiColor made colors => rw [remarked_of_ok made, if_pos colors]
    | skippedFallback made colors direction =>
      rw [remarked_of_ok made, if_neg colors, if_pos direction]
    | applied made colors direction =>
      rw [remarked_of_ok made, if_neg colors, if_neg direction]
  · intro h
    rcases htext : LegacyFilter.ofText c.gradient with e | filter
    · rw [remarked_of_error htext] at h
      cases h
      exact .invalidGradient htext
    · rw [remarked_of_ok htext] at h
      split at h
      · next colors =>
        cases h
        exact .skippedMultiColor htext colors
      split at h
      · next colors direction =>
        cases h
        exact .skippedFallback htext colors direction
      · next colors direction =>
        cases h
        exact .applied htext colors direction

/-! ## The report with all warnings -/

theorem full_of_none (hc : r.candidate? = none) : full o r = ⟨.noGradient, []⟩ := by
  rw [full, hc]

theorem full_of_declares {c : Candidate} (hc : r.candidate? = some c)
    (own : r.declares isFilterProperty = true) : full o r =
      ⟨.existingFilter, [⟨.existingFilter, .rule r.head.selector, r.head.location⟩]⟩ := by
  rw [full, hc]
  exact if_pos own

theorem full_of_free {c : Candidate} (hc : r.candidate? = some c)
    (free : r.declares isFilterProperty = false) : full o r =
      ⟨(ofCandidate o c).1, (ofCandidate o c).2.map fun f =>
        ⟨f, .declaration c.declaration.property, c.declaration.location⟩⟩ := by
  rw [full, hc]
  exact if_neg (Bool.not_eq_true _ ▸ free)

/-- The outcome with all warnings, and the remarks in these. -/
def fullRemarked (o : Options) (r : Rule) : RuleOutcome × List Remark :=
  ((full o r).outcome, (full o r).diagnostics.map Diagnostic.remark)

theorem fullRemarked_of_free {c : Candidate} (hc : r.candidate? = some c) (free : ¬r.HasFilter) :
    fullRemarked o r = remarked c.declaration (ofCandidate o c) := by
  rw [Rule.hasFilter_iff, Bool.not_eq_true] at free
  rw [fullRemarked, full_of_free hc free, List.map_map]
  rfl

/-- A rule falls under the one case that its report tells of. -/
theorem decision_iff (outcome : RuleOutcome) (remarks : List Remark) :
    Decision o r outcome remarks ↔ (outcome, remarks) = fullRemarked o r := by
  constructor
  · intro h
    cases h with
    | noGradient none =>
      rcases hc : r.candidate? with _ | c
      · rw [fullRemarked, full_of_none hc]
        rfl
      · have source := Rule.source_of_candidate? hc
        exact absurd source.isEligible (none c.declaration source.mem)
    | existingFilter source own =>
      obtain ⟨c, hc, -⟩ := source.candidate?
      rw [fullRemarked, full_of_declares hc (Rule.hasFilter_iff.1 own)]
      rfl
    | chosen source free choice =>
      obtain ⟨c, hc, rfl, rfl, rfl⟩ := source.candidate?
      rw [fullRemarked_of_free hc free]
      exact (choice_iff c outcome remarks).1 choice
  · intro h
    rcases hc : r.candidate? with _ | c
    · rw [fullRemarked, full_of_none hc] at h
      cases h
      refine .noGradient fun d hd => ?_
      rw [← d.holdsGradient_iff]
      exact Rule.not_holdsGradient_of_candidate? hc d hd
    · have source := Rule.source_of_candidate? hc
      by_cases own : r.HasFilter
      · rw [fullRemarked, full_of_declares hc (Rule.hasFilter_iff.1 own)] at h
        cases h
        exact .existingFilter source own
      · rw [fullRemarked_of_free hc own] at h
        exact .chosen source own ((choice_iff c outcome remarks).2 h)

/-- Every rule falls under exactly one case, which its report tells: the outcome, and the remarks in
their order unless the options ask for no warnings. -/
theorem of_decision (o : Options) (r : Rule) :
    ∃ remarks, (∀ outcome' remarks', Decision o r outcome' remarks' ↔
        outcome' = (of o r).outcome ∧ remarks' = remarks) ∧
      (of o r).diagnostics.map Diagnostic.remark = if o.skipWarnings then [] else remarks := by
  refine ⟨(full o r).diagnostics.map Diagnostic.remark, fun outcome' remarks' => ?_, ?_⟩
  · rw [decision_iff, of_outcome, fullRemarked, Prod.mk.injEq]
  · rw [of]
    split <;> rfl

end RuleReport
end GradientFallback
