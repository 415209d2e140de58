import GradientFallback.Proofs.Fallback.Content
import GradientFallback.Proofs.Fallback.Decision
import Mathlib.Data.List.Forall2

/-! # Giving filters again

A rule that got a filter has one when filters are given again, and any other rule is treated as
before.  So giving filters twice is giving them once, and no rule ever gets a second one.
-/
namespace GradientFallback

/-! ## Inserting keeps the rules -/

namespace Node

theorem rulesOfAll_following (d : Declaration) (n : Node) :
    rulesOfAll (Rule.following d n) = n.rules := by
  cases n <;> simp [Rule.following, rulesOfAll, rules]

/-- A declaration that is put into a block brings no rules. -/
theorem rulesOfAll_insertInto (d : Declaration) (index : Nat) (nodes : List Node) :
    rulesOfAll (Rule.insertInto d index nodes) = rulesOfAll nodes := by
  fun_induction Rule.insertInto d index nodes with
  | case1 => rfl
  | case2 index n => rw [rulesOfAll_following, rulesOfAll, rulesOfAll, List.append_nil]
  | case3 n nodes => rw [rulesOfAll_append, rulesOfAll_following, rulesOfAll]
  | case4 index n nodes hnodes ih => rw [rulesOfAll, ih, rulesOfAll]

end Node

theorem RuleReport.rulesOfAll_amend (report : RuleReport) (r : Rule) :
    Node.rulesOfAll (report.amend r).nodes = Node.rulesOfAll r.nodes := by
  unfold amend
  split
  · exact Node.rulesOfAll_insertInto _ _ r.nodes
  · rfl

/-! ## One rule -/

namespace Rule

/-- The rule with its filter, if it gets one, and with the filters of the rules inside it. -/
def withFilters (o : Options) (r : Rule) : Rule :=
  (RuleReport.of o r).amend ⟨r.head, r.nodes.map (·.withFilters o), r.after⟩

/-- The number of filters that the rule itself declares. -/
def ownFilters (r : Rule) : Nat := r.declarations.countP fun d => isFilterProperty d.property

/-- The rule `r'` is `r` with no more filters, or with its first one. -/
structure Settles (r r' : Rule) : Prop where
  head : r'.head = r.head
  filters : r'.ownFilters = r.ownFilters ∨ r.ownFilters = 0 ∧ r'.ownFilters = 1

theorem Settles.refl (r : Rule) : r.Settles r := ⟨rfl, .inl rfl⟩

theorem Settles.trans {r r' r'' : Rule} (h : r.Settles r') (h' : r'.Settles r'') :
    r.Settles r'' := by
  have hfirst := h.filters
  have hsecond := h'.filters
  refine ⟨h'.head.trans h.head, ?_⟩
  omega

variable (o : Options)

theorem ofRule_withFilters (r : Rule) :
    Node.ofRule (r.withFilters o) = (Node.ofRule r).withFilters o :=
  (Node.visit_rule_fst _ _ r.head r.nodes r.after).symm

/-- A rule gets no filter, or its first one behind its last declaration with a gradient. -/
theorem withFilters_cases (r : Rule) :
    ((RuleReport.of o r).isApplied = false ∧
      r.withFilters o = ⟨r.head, r.nodes.map (·.withFilters o), r.after⟩) ∨
    ∃ filter front d back, (RuleReport.of o r).isApplied = true ∧
      Node.LastGradient r.nodes front d back ∧
      r.withFilters o = ⟨r.head,
        Node.graft (front.map (·.withFilters o)) d filter (back.map (·.withFilters o)), r.after⟩ := by
  have hofRule (head : RuleHead) (nodes : List Node) (after : String)
      (h : (Node.ofRule r).withFilters o = .rule head nodes after) :
      r.withFilters o = ⟨head, nodes, after⟩ := by
    rw [← ofRule_withFilters] at h
    cases hr : r.withFilters o
    rw [hr] at h
    cases h
    rfl
  rcases Node.withFilters_rule o r.head r.nodes r.after with
    ⟨hskipped, hrule⟩ | ⟨filter, front, d, back, hfilter, -, hlast, hrule⟩
  · exact .inl ⟨hskipped, hofRule _ _ _ hrule⟩
  · refine .inr ⟨filter, front, d, back, ?_, hlast, hofRule _ _ _ hrule⟩
    rw [RuleReport.isApplied, hfilter]

theorem declarations_eq (r : Rule) :
    r.declarations = (r.nodes.map Node.declaration?).filterMap id := by
  rw [declarations, List.filterMap_map, Function.id_comp]

theorem filterMap_declaration?_withFilters (nodes : List Node) :
    (nodes.map (·.withFilters o)).filterMap Node.declaration? =
      nodes.filterMap Node.declaration? := by
  rw [List.filterMap_map]
  exact List.filterMap_congr fun n _ => Node.declaration?_visit _ _ n

theorem ownFilters_eq_zero_iff (r : Rule) :
    r.ownFilters = 0 ↔ r.declares isFilterProperty = false := by
  simp [ownFilters, declares, List.countP_eq_zero]

/-- A filter that is put in counts, and the declaration in front of it does not. -/
theorem ownFilters_graft {r : Rule} {front back : List Node} {d : Declaration} (filter : String)
    (hnodes : r.nodes = front ++ .declaration d :: back) :
    ownFilters ⟨r.head, Node.graft (front.map (·.withFilters o)) d filter
      (back.map (·.withFilters o)), r.after⟩ = r.ownFilters + 1 := by
  simp only [ownFilters, declarations, hnodes, Node.graft, List.filterMap_append,
    List.filterMap_cons, Node.declaration?, filterMap_declaration?_withFilters, List.countP_append,
    List.countP_cons]
  have hfilter : isFilterProperty "filter" = true := rfl
  simp only [hfilter, if_true]
  omega

/-- One run of the filters settles every rule. -/
theorem settles_withFilters (r : Rule) : r.Settles (r.withFilters o) := by
  rcases r.withFilters_cases o with ⟨-, hrule⟩ | ⟨filter, front, d, back, happlied, hlast, hrule⟩
  · rw [hrule]
    refine ⟨rfl, .inl ?_⟩
    rw [ownFilters, declarations, filterMap_declaration?_withFilters]
    rfl
  · have hfree : r.ownFilters = 0 :=
      r.ownFilters_eq_zero_iff.2 (RuleReport.not_declares_of_isApplied happlied)
    have hgraft := ownFilters_graft o filter hlast.nodes_eq
    rw [hrule]
    refine ⟨rfl, .inr ⟨hfree, ?_⟩⟩
    rw [hgraft, hfree]

end Rule

/-! ## The second report -/

namespace RuleReport

variable (o : Options)

/-- What is reported on a rule after a first report: a rule that got a filter has one now, and any
other is reported on as before. -/
def again (r : Rule) (report : RuleReport) : RuleReport :=
  if report.isApplied then
    ⟨.existingFilter, if o.skipWarnings then [] else
      [⟨.existingFilter, .rule r.head.selector, r.head.location⟩]⟩
  else report

theorem again_not_applied (r : Rule) (report : RuleReport) :
    (again o r report).isApplied = false := by
  unfold again
  split
  · rfl
  · next h => exact Bool.eq_false_iff.2 h

/-- A rule with a gradient and a filter of its own is reported to have one. -/
theorem of_of_declares {r : Rule} {d : Declaration} (hd : .declaration d ∈ r.nodes)
    (hholds : d.HoldsGradient) (hdeclares : r.declares isFilterProperty = true) :
    of o r = ⟨.existingFilter, if o.skipWarnings then [] else
      [⟨.existingFilter, .rule r.head.selector, r.head.location⟩]⟩ := by
  rcases hc : r.candidate? with _ | c
  · exact absurd hholds (Rule.not_holdsGradient_of_candidate? hc d hd)
  · rw [of, full_of_declares hc hdeclares]
    split <;> rfl

/-- Only the head and the declarations in their places decide about a report. -/
theorem of_congr {r r' : Rule} (hhead : r.head = r'.head)
    (hnodes : r.nodes.map Node.declaration? = r'.nodes.map Node.declaration?) :
    of o r = of o r' := by
  have hcandidate := Rule.candidate?_congr hnodes
  have hdeclares : r.declares isFilterProperty = r'.declares isFilterProperty := by
    rw [Rule.declares, Rule.declares, Rule.declarations_eq, Rule.declarations_eq, hnodes]
  rw [of, of, full, full, hcandidate, hdeclares, hhead]

theorem of_withFilters (r : Rule) : of o (r.withFilters o) = again o r (of o r) := by
  rcases r.withFilters_cases o with
    ⟨hskipped, hrule⟩ | ⟨filter, front, d, back, happlied, hlast, hrule⟩
  · rw [again, hskipped, hrule]
    refine of_congr o rfl ?_
    have hsame := Node.declaration?_visitAll (RuleReport.of o) RuleReport.amend r.nodes
    rw [Node.visitAll_fst] at hsame
    exact hsame
  · rw [again, happlied, if_pos rfl]
    have hhead : (r.withFilters o).head = r.head := (r.settles_withFilters o).head
    rw [← hhead]
    refine of_of_declares o (d := { d with semicolon := true }) ?_ hlast.holds ?_
    · rw [hrule]
      exact List.mem_append_right _ List.mem_cons_self
    · rw [← Bool.not_eq_false, ← Rule.ownFilters_eq_zero_iff, hrule,
        Rule.ownFilters_graft o filter hlast.nodes_eq]
      exact Nat.succ_ne_zero _

end RuleReport

/-! ## Trees -/

namespace Node

variable (o : Options)

theorem rules_ofRule (r : Rule) : (ofRule r).rules = r :: rulesOfAll r.nodes := rfl

/-- The rules of a tree with its filters are its rules with theirs. -/
theorem rules_withFilters (n : Node) : (n.withFilters o).rules = n.rules.map (·.withFilters o) := by
  have hall (nodes : List Node)
      (h : ∀ n ∈ nodes, (n.withFilters o).rules = n.rules.map (·.withFilters o)) :
      rulesOfAll (nodes.map (·.withFilters o)) = (rulesOfAll nodes).map (·.withFilters o) := by
    rw [rulesOfAll_eq_flatMap, rulesOfAll_eq_flatMap, List.flatMap_map, List.map_flatMap]
    exact List.flatMap_congr h
  induction n using induct with
  | rule head nodes after ih =>
    have hrule : (Node.rule head nodes after).withFilters o =
        ofRule (Rule.withFilters o ⟨head, nodes, after⟩) :=
      (Rule.ofRule_withFilters o ⟨head, nodes, after⟩).symm
    have hinner := RuleReport.rulesOfAll_amend (RuleReport.of o ⟨head, nodes, after⟩)
      ⟨head, nodes.map (·.withFilters o), after⟩
    rw [hall nodes ih] at hinner
    rw [hrule, rules_ofRule, rules, List.map_cons, ← hinner]
    rfl
  | atRule head nodes after ih =>
    rw [withFilters, visit_atRule_fst, rules, rules]
    exact hall nodes ih
  | statement => rfl
  | declaration => rfl
  | comment => rfl

theorem map_withFilters_of_filterCount {nodes : List Node} (hcount : filterCount o nodes = 0)
    (h : ∀ n ∈ nodes, filterCount o [n] = 0 → n.withFilters o = n) :
    nodes.map (·.withFilters o) = nodes := by
  induction nodes with
  | nil => rfl
  | cons n nodes ih =>
    rw [filterCount_cons] at hcount
    rw [List.map_cons, h n List.mem_cons_self (by omega),
      ih (by omega) fun m hm => h m (List.mem_cons_of_mem n hm)]

/-- A tree whose rules get no filter stays as it is. -/
theorem withFilters_of_filterCount (n : Node) (hcount : filterCount o [n] = 0) :
    n.withFilters o = n := by
  induction n using induct with
  | rule head nodes after ih =>
    rw [filterCount_rule] at hcount
    have hinner := map_withFilters_of_filterCount o (by omega) ih
    rcases withFilters_rule o head nodes after with
      ⟨-, hrule⟩ | ⟨filter, front, d, back, hfilter, -⟩
    · rw [hrule, hinner]
    · rw [RuleReport.isApplied, hfilter] at hcount
      exact absurd hcount (Nat.succ_ne_zero _)
  | atRule head nodes after ih =>
    rw [filterCount_atRule] at hcount
    rw [withFilters, visit_atRule_fst]
    exact congrArg (Node.atRule head · after) (map_withFilters_of_filterCount o hcount ih)
  | statement => rfl
  | declaration => rfl
  | comment => rfl

end Node

/-! ## Stylesheets -/

namespace Stylesheet

variable (o : Options) (s : Stylesheet)

theorem rules_transform : (s.transform o).1.rules = s.rules.map (·.withFilters o) := by
  rw [rules, transform_nodes, rules, Node.rulesOfAll_eq_flatMap, Node.rulesOfAll_eq_flatMap,
    List.flatMap_map, List.map_flatMap]
  exact List.flatMap_congr fun n _ => n.rules_withFilters o

/-- The second run reports that each filter of the first one is there. -/
theorem reports_transform : ((s.transform o).1.applyFilters o).2 =
    List.zipWith (RuleReport.again o) s.rules (s.applyFilters o).2 := by
  rw [applyFilters_reports, applyFilters_reports, rules_transform, List.map_map,
    List.zipWith_map_right, List.zipWith_self]
  exact List.map_congr_left fun r _ => RuleReport.of_withFilters o r

theorem applied_transform : ((s.transform o).1.transform o).2.applied = 0 := by
  rw [transform_applied, Node.filterCount, List.countP_eq_zero]
  intro r hr
  have hrules : r ∈ s.rules.map (·.withFilters o) := by
    rw [← rules_transform]
    exact hr
  obtain ⟨r', -, rfl⟩ := List.mem_map.1 hrules
  rw [RuleReport.of_withFilters, RuleReport.again_not_applied]
  exact Bool.false_ne_true

theorem transform_of_applied (h : (s.transform o).2.applied = 0) : (s.transform o).1 = s := by
  rw [transform_applied] at h
  rw [transform_fst,
    Node.map_withFilters_of_filterCount o h fun n _ => n.withFilters_of_filterCount o]

/-- Any number of runs, each with options of its own, settles every rule. -/
theorem settles_foldl (os : List Options) :
    List.Forall₂ Rule.Settles s.rules (os.foldl (fun s o => (s.transform o).1) s).rules := by
  induction os generalizing s with
  | nil => exact List.forall₂_same.2 fun r _ => .refl r
  | cons o os ih =>
    have hothers := ih (s.transform o).1
    rw [rules_transform, List.forall₂_map_left_iff] at hothers
    exact hothers.imp fun r r' h => (r.settles_withFilters o).trans h

/-- Giving filters a second time changes nothing and gives none: a rule that got one is reported to
have it, and the report on any other is the first one.  No run gives a rule a second filter. -/
theorem transform_transform (o : Options) (s : Stylesheet) :
    ((s.transform o).1.transform o).1 = (s.transform o).1 ∧
      ((s.transform o).1.transform o).2.applied = 0 ∧
      ((s.transform o).1.applyFilters o).2 =
        List.zipWith (RuleReport.again o) s.rules (s.applyFilters o).2 ∧
      ∀ os : List Options,
        List.Forall₂ Rule.Settles s.rules (os.foldl (fun s o => (s.transform o).1) s).rules :=
  ⟨transform_of_applied o _ (applied_transform o s), applied_transform o s, reports_transform o s,
    settles_foldl s⟩

end Stylesheet
end GradientFallback
