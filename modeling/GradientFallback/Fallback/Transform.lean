import GradientFallback.Fallback.Rule
import GradientFallback.Stylesheet.Parser
import GradientFallback.Stylesheet.Printer

/-! # Filters for stylesheets

Every rule of a stylesheet, however deep it stands, gets its filter.  The warnings come in the
order of the rules.
-/
namespace GradientFallback

structure TransformReport where
  diagnostics : List Diagnostic
  /-- The number of filters put in. -/
  applied : Nat
  deriving DecidableEq

/-- The reports on single rules taken together. -/
def TransformReport.ofRules (reports : List RuleReport) : TransformReport :=
  ⟨reports.flatMap RuleReport.diagnostics, reports.countP RuleReport.isApplied⟩

namespace Stylesheet

/-- Gives every rule its filter, with a report on each. -/
def applyFilters (o : Options) (s : Stylesheet) : Stylesheet × List RuleReport :=
  s.visit (RuleReport.of o) RuleReport.amend

/-- Gives every rule its filter. -/
def transform (o : Options) (s : Stylesheet) : Stylesheet × TransformReport :=
  let (result, reports) := s.applyFilters o
  (result, .ofRules reports)

end Stylesheet

/-- A stylesheet with its filters, as text. -/
structure Processed where
  css : String
  diagnostics : List Diagnostic
  applied : Nat
  deriving DecidableEq

/-- Reads a stylesheet, gives every rule its filter and writes the stylesheet. -/
def process (o : Options) (css : String) : Except ParseError Processed :=
  (Stylesheet.parse .strict css).map fun s =>
    let (result, report) := s.transform o
    ⟨result.print, report.diagnostics, report.applied⟩

end GradientFallback
