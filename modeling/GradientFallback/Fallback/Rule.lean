import GradientFallback.Fallback.Diagnostic
import GradientFallback.Fallback.Options
import GradientFallback.Stylesheet.Rules
import GradientFallback.Value.Comma

/-! # Filters for rules

A rule whose background holds a linear gradient gets a legacy filter, unless it has a filter of its
own, no filter can be made, or the options leave it out.  The last declaration with a gradient
counts, and in it the first gradient.
-/
namespace GradientFallback

def isGradientProperty (property : String) : Bool :=
  property == "background" || property == "background-image"

def isFilterProperty (property : String) : Bool := property == "filter" || property == "-ms-filter"

/-- The parts of a value that start like a linear gradient. -/
def gradientsOf (value : String) : List String :=
  (Comma.split value).filter fun part => "linear-gradient".toList.isPrefixOf part.toList

/-- A declaration with gradients: its place in the rule, the first gradient and their number. -/
structure Candidate where
  index : Nat
  declaration : Declaration
  gradient : String
  count : Nat

def Candidate.at? (r : Rule) (index : Nat) : Option Candidate :=
  (r.declaration? index).bind fun d =>
    match gradientsOf d.value with
    | [] => none
    | g :: gs => some ⟨index, d, g, gs.length + 1⟩

/-- The last declaration of the rule that holds a gradient. -/
def Rule.candidate? (r : Rule) : Option Candidate :=
  ((r.placesOf isGradientProperty).filterMap (Candidate.at? r)).getLast?

inductive RuleOutcome where
  | noGradient
  | existingFilter
  | invalidGradient
  | skippedMultiColor
  | skippedFallback
  | applied (filter : String)
  deriving DecidableEq

structure RuleReport where
  outcome : RuleOutcome
  diagnostics : List Diagnostic
  deriving DecidableEq

namespace RuleReport

/-- What becomes of a rule that has the given candidate and no filter, and what there is to say
about it. -/
def ofCandidate (o : Options) (c : Candidate) : RuleOutcome × List Finding :=
  let several := if c.count > 1 then [Finding.multipleGradients] else []
  match LegacyFilter.ofText c.gradient with
  | .error e => (.invalidGradient, several ++ [.invalid e])
  | .ok filter =>
    if o.skipMultiColor && filter.isMultiColor then (.skippedMultiColor, several)
    else if !o.angleFallback && filter.approximation.isSome then (.skippedFallback, several)
    else (.applied filter.value, several ++ filter.approximation.toList.map .approximated)

/-- The report on a rule with all warnings. -/
def full (o : Options) (r : Rule) : RuleReport :=
  match r.candidate? with
  | none => ⟨.noGradient, []⟩
  | some c =>
    if r.declares isFilterProperty then
      ⟨.existingFilter, [⟨.existingFilter, .rule r.head.selector, r.head.location⟩]⟩
    else
      let (outcome, findings) := ofCandidate o c
      ⟨outcome, findings.map fun f =>
        ⟨f, .declaration c.declaration.property, c.declaration.location⟩⟩

/-- The report on a rule, without warnings where the options ask for none. -/
def of (o : Options) (r : Rule) : RuleReport :=
  let report := full o r
  if o.skipWarnings then { report with diagnostics := [] } else report

def isApplied (report : RuleReport) : Bool :=
  match report.outcome with
  | .applied _ => true
  | _ => false

/-- Puts the filter that was applied behind the declaration it was made for. -/
def amend (report : RuleReport) (r : Rule) : Rule :=
  match report.outcome, r.candidate? with
  | .applied filter, some c => r.insertAfter c.index (c.declaration.withContent "filter" filter)
  | _, _ => r

end RuleReport
end GradientFallback
