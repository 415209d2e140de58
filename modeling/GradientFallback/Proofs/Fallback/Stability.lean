import GradientFallback.Proofs.Fallback.LineEnds
import GradientFallback.Proofs.Fallback.Repetition
import GradientFallback.Proofs.Stylesheet.Reparsing

/-! # Processing twice

A stylesheet with its filters is read again as it was written, and none of its rules gets another
filter.  Two things can go wrong: a name of an at-rule that cannot be written without escapes is
read as something else, and a value can take up the semicolon that is written behind it.
-/
namespace GradientFallback

namespace Stylesheet

/-- A stylesheet none of whose rules gets a filter is written as it was. -/
theorem print_transform_of_filterCount {o : Options} {s : Stylesheet}
    (h : Node.filterCount o s.nodes = 0) : (s.transform o).1.print = s.print := by
  rw [transform_of_applied o s ((transform_applied o s).trans h)]

end Stylesheet

/-- A stylesheet with its filters is read again, stays as it is and gets no other filters, if the
names of its at-rules are plain and every declaration that gets a semicolon takes it. -/
theorem process_process {o : Options} {css : String} {s : Stylesheet} {p : Processed}
    (hreturn : '\r' ∉ css.toList) (hs : Stylesheet.parse .strict css = .ok s)
    (hnames : ∀ name ∈ s.keywords,
      Scan.token ('@' :: name.toList) = some (.atKeyword name, name.toList.length + 1))
    (hends : ∀ r ∈ s.rules, r.TakesFilter o) (hp : process o css = .ok p) :
    ∃ q, process o p.css = .ok q ∧ q.css = p.css ∧ q.applied = 0 := by
  obtain ⟨c, hc, rfl, hreturn⟩ :=
    Stylesheet.exists_tidy (rfl : ParseConfig.strict.lenient = false) hreturn hs hnames
  obtain ⟨g, hg, hafter, hgrown⟩ := hc.exists_grown hends
  obtain ⟨hprint, -, hcount⟩ := Node.Grown.all hgrown
  have hcss : p.css = Node.printAll (c.nodes.map (·.withFilters o)) ++ c.after := by
    have hprocessed : p.css = ((c.sheet none).transform o).1.print := by
      rw [process, hs] at hp
      cases hp
      rfl
    rw [hprocessed, Stylesheet.print, Stylesheet.transform_nodes]
    rfl
  have htext : p.css.toList = Token.source g.tokens := by
    rw [hcss, ← hprint, ← hafter, String.toList_append, hg.print]
  have hwritten : '\r' ∉ p.css.toList := by
    rw [← hc.print, List.mem_append, not_or] at hreturn
    rw [hcss, String.toList_append, List.mem_append, not_or]
    exact ⟨Node.not_mem_printAll_withFilters o (fun n _ => n.not_mem_withFilters o) hreturn.1,
      hreturn.2⟩
  obtain ⟨s, hread, hsheet, hsame⟩ :=
    hg.exists_parse htext hwritten (rfl : ParseConfig.strict.lenient = false)
  have hnodes : Node.unplacedAll s.nodes = Node.unplacedAll g.nodes :=
    congrArg Stylesheet.nodes hsheet
  have hnone : Node.filterCount o s.nodes = 0 := by
    rw [← Node.filterCount_unplacedAll, hnodes, Node.filterCount_unplacedAll, hcount]
  refine ⟨_, by rw [process, hread]; rfl, ?_, ?_⟩
  · exact (Stylesheet.print_transform_of_filterCount hnone).trans hsame
  · exact (Stylesheet.transform_applied o s).trans hnone

/-- A gradient in the last declaration of a block, which no semicolon ends. -/
def nestedSheet : String := "@media tv\x7ba\x7bbackground:linear-gradient(red,blue)\x7d\x7d"

theorem process_process_nestedSheet :
    ∃ p q, process .default nestedSheet = .ok p ∧ p.applied = 1 ∧
      process .default p.css = .ok q ∧ q.css = p.css ∧ q.applied = 0 := by
  have hread : (Stylesheet.parse .strict nestedSheet).toOption.any (fun s =>
      s.keywords = ["media"] ∧ ∀ r ∈ s.rules, ∀ d ∈ r.declarations, d.TakesSemicolon) = true := by
    decide +kernel
  have hprocessed : (process .default nestedSheet).toOption.any (fun p => p.applied = 1) = true := by
    decide +kernel
  rcases hs : Stylesheet.parse .strict nestedSheet with e | s
  · rw [hs] at hread
    exact absurd hread nofun
  rcases hp : process .default nestedSheet with e | p
  · rw [hp] at hprocessed
    exact absurd hprocessed nofun
  rw [hs] at hread
  rw [hp] at hprocessed
  obtain ⟨hkeywords, hdeclarations⟩ := of_decide_eq_true hread
  have hnames : ∀ name ∈ s.keywords,
      Scan.token ('@' :: name.toList) = some (.atKeyword name, name.toList.length + 1) := by
    rw [hkeywords]
    exact List.forall_mem_singleton.2 rfl
  obtain ⟨q, hq⟩ := process_process (by decide) hs hnames
    (fun r hr => Rule.takesFilter_of_declarations .default fun d hd _ => hdeclarations r hr d hd) hp
  exact ⟨p, q, rfl, of_decide_eq_true hprocessed, hq⟩

/-- The brace in the name is written without its escape, and opens a block. -/
example : ∃ p, process .default "@\\\x7b;" = .ok p ∧ (process .default p.css).toOption = none :=
  ⟨_, rfl, rfl⟩

end GradientFallback
