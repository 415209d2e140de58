import GradientFallback.Proofs.Fallback.Content
import GradientFallback.Proofs.Fallback.Decision

/-! # What options suppress

Options leave filters out and drop warnings, and do nothing else.  A rule that gets no filter by
default has the same outcome under all options; one that gets a filter has it unless its gradient
has more colors or a direction that the options leave out.  Whether warnings are given decides about
nothing but the warnings.
-/
namespace GradientFallback

/-- The gradient that a filter for the rule is made for, if it can be read. -/
def Rule.gradient? (r : Rule) : Option (Gradient Float) :=
  r.candidate?.bind fun c => Gradient.parse? c.gradient

/-- The outcome for a rule with a filter for the gradient `g` to get. -/
def Options.outcomeFor (o : Options) (g : Gradient Float) (value : String) : RuleOutcome :=
  if o.skipMultiColor = true ∧ 2 < g.stops.length then .skippedMultiColor
  else if o.angleFallback = false ∧ (Direction.ofHeading g.heading).approximation.isSome = true then
    .skippedFallback
  else .applied value

/-- A filter is made for a gradient, and tells of its colors and its direction. -/
theorem LegacyFilter.exists_gradient {text : String} {filter : LegacyFilter}
    (h : ofText text = .ok filter) :
    ∃ g, Gradient.parse? text = some g ∧ filter.isMultiColor = g.isMultiColor ∧
      filter.approximation = (Direction.ofHeading g.heading).approximation := by
  unfold ofText at h
  split at h
  · next g hg =>
    simp only [ofGradient] at h
    split at h
    · cases h
      exact ⟨g, hg, rfl, rfl⟩
    · cases h
  · cases h

namespace RuleReport

variable (o : Options) {r : Rule}

theorem outcome_of_free {c : Candidate} (hc : r.candidate? = some c)
    (free : r.declares isFilterProperty = false) :
    (of o r).outcome = (remarked c.declaration (ofCandidate o c)).1 := by
  rw [of_outcome, full_of_free hc free]
  rfl

/-- By default every filter that can be made is applied. -/
theorem outcome_default_of_ok {c : Candidate} {filter : LegacyFilter} (hc : r.candidate? = some c)
    (free : r.declares isFilterProperty = false) (made : LegacyFilter.ofText c.gradient = .ok filter) :
    (of .default r).outcome = .applied filter.value := by
  rw [outcome_of_free .default hc free, remarked_of_ok made]
  rfl

/-- A rule that gets no filter by default has the same outcome under all options. -/
theorem outcome_of_not_applied (h : ∀ value, (of .default r).outcome ≠ .applied value) :
    (of o r).outcome = (of .default r).outcome := by
  rcases hc : r.candidate? with _ | c
  · rw [of_outcome, of_outcome, full_of_none hc, full_of_none hc]
  by_cases own : r.declares isFilterProperty = true
  · rw [of_outcome, of_outcome, full_of_declares hc own, full_of_declares hc own]
  rw [Bool.not_eq_true] at own
  rcases htext : LegacyFilter.ofText c.gradient with e | filter
  · rw [outcome_of_free o hc own, outcome_of_free .default hc own, remarked_of_error htext,
      remarked_of_error htext]
  · exact absurd (outcome_default_of_ok hc own htext) (h filter.value)

/-- A rule that gets a filter by default gets it unless the options leave out its gradient. -/
theorem outcome_of_applied {value : String} (h : (of .default r).outcome = .applied value) :
    ∃ g, r.gradient? = some g ∧ (of o r).outcome = o.outcomeFor g value := by
  obtain ⟨-, c, hc⟩ := of_applied h
  have happlied : (of .default r).isApplied = true := by rw [isApplied, h]
  have free : r.declares isFilterProperty = false := not_declares_of_isApplied happlied
  rcases htext : LegacyFilter.ofText c.gradient with e | filter
  · rw [outcome_of_free .default hc free, remarked_of_error htext] at h
    cases h
  · rw [outcome_default_of_ok hc free htext] at h
    cases h
    obtain ⟨g, hg, hcolors, hdirection⟩ := filter.exists_gradient htext
    have hmulti : filter.isMultiColor = true ↔ 2 < g.stops.length := by
      simp [hcolors, Gradient.isMultiColor]
    refine ⟨g, by rw [Rule.gradient?, hc]; exact hg, ?_⟩
    rw [outcome_of_free o hc free, remarked_of_ok htext, Options.outcomeFor]
    simp only [hmulti, hdirection]
    split
    · rfl
    split <;> rfl

/-- The change of a rule depends on the outcome only. -/
theorem amend_congr {report report' : RuleReport} (h : report.outcome = report'.outcome)
    (r : Rule) : report.amend r = report'.amend r := by
  rw [amend, amend, h]

theorem isApplied_of_outcome {report report' : RuleReport} (h : report.outcome = report'.outcome) :
    report.isApplied = report'.isApplied := by
  rw [isApplied, isApplied, h]

/-- Whether warnings are given does not decide about the outcome. -/
theorem outcome_congr {o o' : Options} (hangle : o.angleFallback = o'.angleFallback)
    (hcolors : o.skipMultiColor = o'.skipMultiColor) (r : Rule) :
    (of o r).outcome = (of o' r).outcome := by
  rw [of_outcome, of_outcome]
  rcases o with ⟨angleFallback, skipMultiColor, skipWarnings⟩
  obtain rfl : angleFallback = o'.angleFallback := hangle
  obtain rfl : skipMultiColor = o'.skipMultiColor := hcolors
  rfl

theorem diagnostics_of_skipWarnings {o : Options} (h : o.skipWarnings = true) (r : Rule) :
    (of o r).diagnostics = [] := by
  rw [of, if_pos h]

end RuleReport

/-! ## Stylesheets -/

/-- Options under which all rules have the same outcomes give the same filters. -/
theorem Node.withFilters_congr {o o' : Options}
    (h : ∀ r, (RuleReport.of o r).outcome = (RuleReport.of o' r).outcome) (n : Node) :
    n.withFilters o = n.withFilters o' := by
  induction n using induct with
  | rule head nodes after ih =>
    rw [withFilters, withFilters, visit_rule_fst, visit_rule_fst,
      RuleReport.amend_congr (h ⟨head, nodes, after⟩)]
    exact congrArg (fun nodes => ofRule ((RuleReport.of o' _).amend ⟨head, nodes, after⟩))
      (List.map_congr_left ih)
  | atRule head nodes after ih =>
    rw [withFilters, withFilters, visit_atRule_fst, visit_atRule_fst]
    exact congrArg (Node.atRule head · after) (List.map_congr_left ih)
  | statement => rfl
  | declaration => rfl
  | comment => rfl

namespace Stylesheet

theorem transform_congr {o o' : Options}
    (h : ∀ r, (RuleReport.of o r).outcome = (RuleReport.of o' r).outcome) (s : Stylesheet) :
    (s.transform o).1 = (s.transform o').1 ∧
      (s.transform o).2.applied = (s.transform o').2.applied := by
  constructor
  · have hnodes : s.nodes.map (·.withFilters o) = s.nodes.map (·.withFilters o') :=
      List.map_congr_left fun n _ => n.withFilters_congr h
    rw [transform_fst, transform_fst, hnodes]
  · rw [transform_applied, transform_applied, Node.filterCount, Node.filterCount]
    exact List.countP_congr fun r _ => by rw [RuleReport.isApplied_of_outcome (h r)]

theorem diagnostics_of_skipWarnings {o : Options} (h : o.skipWarnings = true) (s : Stylesheet) :
    (s.transform o).2.diagnostics = [] := by
  rw [transform_diagnostics, List.flatMap_eq_nil_iff]
  exact fun r _ => RuleReport.diagnostics_of_skipWarnings h r

/-- Options leave out filters and warnings only.  A rule without a filter by default has the outcome
it has by default; one with a filter gets the same one in the same place, unless the options leave
out its gradient.  Whether warnings are given changes neither the stylesheet nor the count. -/
theorem transform_under_options (s : Stylesheet) (o o' : Options) :
    (s.applyFilters o).2 = s.rules.map (RuleReport.of o) ∧
    (∀ r ∈ s.rules,
      ((∀ value, (RuleReport.of .default r).outcome ≠ .applied value) →
        (RuleReport.of o r).outcome = (RuleReport.of .default r).outcome) ∧
      ∀ value, (RuleReport.of .default r).outcome = .applied value →
        ∃ g, r.gradient? = some g ∧ (RuleReport.of o r).outcome = o.outcomeFor g value ∧
          ((RuleReport.of o r).outcome = .applied value →
            (RuleReport.of o r).amend = (RuleReport.of .default r).amend)) ∧
    (o.angleFallback = o'.angleFallback → o.skipMultiColor = o'.skipMultiColor →
      (s.transform o).1 = (s.transform o').1 ∧
        (s.transform o).2.applied = (s.transform o').2.applied) ∧
    (o.skipWarnings = true → (s.transform o).2.diagnostics = []) := by
  refine ⟨applyFilters_reports o s, fun r _ => ⟨RuleReport.outcome_of_not_applied o, ?_⟩,
    fun hangle hcolors => transform_congr (RuleReport.outcome_congr hangle hcolors) s,
    fun hskip => diagnostics_of_skipWarnings hskip s⟩
  intro value hdefault
  obtain ⟨g, hg, houtcome⟩ := RuleReport.outcome_of_applied o hdefault
  refine ⟨g, hg, houtcome, fun happlied => ?_⟩
  exact funext (RuleReport.amend_congr (happlied.trans hdefault.symm))

/-- A gradient that runs to a corner. -/
def cornerRule : Rule :=
  { Rule.make "a" with nodes := [.declaration (.make "background"
      "linear-gradient(to top left,red,lime,blue)")] }

def cornerSheet : Stylesheet := ⟨[.ofRule cornerRule, .ofRule (.make "b")], "", none⟩

/-- Without warnings the corner is approximated as it is with them; without approximations it gets
no filter. -/
theorem transform_under_options_cornerSheet :
    (RuleReport.of ⟨false, false, true⟩ cornerRule).outcome = .skippedFallback ∧
      (RuleReport.of ⟨false, false, true⟩ (.make "b")).outcome = .noGradient ∧
      (RuleReport.of ⟨true, false, true⟩ cornerRule).amend =
        (RuleReport.of .default cornerRule).amend ∧
      (cornerSheet.transform ⟨true, false, true⟩).1 = (cornerSheet.transform .default).1 ∧
      (cornerSheet.transform ⟨true, false, true⟩).2.diagnostics = [] := by
  have hcorner : cornerRule ∈ cornerSheet.rules := List.mem_cons_self
  have hplain : Rule.make "b" ∈ cornerSheet.rules := List.mem_cons_of_mem _ List.mem_cons_self
  have hdefault : (RuleReport.of .default cornerRule).outcome = .applied
      "progid:DXImageTransform.Microsoft.gradient( startColorstr='#ff0000ff', endColorstr='#ffff0000',GradientType=0 )" := by
    decide +kernel
  have hnone : (RuleReport.of .default (.make "b")).outcome = .noGradient := by decide +kernel
  have hheading : cornerRule.gradient?.map (fun g =>
      (g.stops.length, (Direction.ofHeading g.heading).approximation)) = some (3, some .corner) := by
    decide +kernel
  obtain ⟨-, hsuppressed, -⟩ :=
    transform_under_options cornerSheet ⟨false, false, true⟩ ⟨false, false, true⟩
  obtain ⟨-, hquiet, hsame, hnothing⟩ :=
    transform_under_options cornerSheet ⟨true, false, true⟩ .default
  obtain ⟨g, hg, houtcome, -⟩ := (hsuppressed cornerRule hcorner).2 _ hdefault
  obtain ⟨g', hg', happlied, hamend⟩ := (hquiet cornerRule hcorner).2 _ hdefault
  rw [hg, Option.map_some, Option.some.injEq, Prod.mk.injEq] at hheading
  refine ⟨?_, ?_, hamend happlied, (hsame rfl rfl).1, hnothing rfl⟩
  · rw [houtcome, Options.outcomeFor, hheading.2]
    rfl
  · exact ((hsuppressed _ hplain).1 (hnone ▸ nofun)).trans hnone

end Stylesheet
end GradientFallback
