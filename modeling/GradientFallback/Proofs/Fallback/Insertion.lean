import GradientFallback.Fallback.Transform
import GradientFallback.Proofs.Fallback.Candidate
import GradientFallback.Proofs.Gradient.FilterText
import GradientFallback.Proofs.Stylesheet.Visiting

/-! # The transform only adds

A rule that gets a filter has it behind the declaration it was made for, and nothing else in the
tree is changed.  So the text of the stylesheet stays as it was but for one string that is put in
for each filter.
-/
namespace GradientFallback

/-! ## Trees with filters put in -/

mutual

/-- The second node is the first one with its filters, and nothing else changed. -/
inductive Node.Filtered (o : Options) : Node → Node → Prop
  /-- The filter stands behind the last declaration with a gradient.  It takes all but its property
  and value from that declaration, and is ended as that declaration was. -/
  | applied {head : RuleHead} {nodes front back front' back' : List Node} {after filter : String}
      {d : Declaration}
      (outcome : (RuleReport.of o ⟨head, nodes, after⟩).outcome = .applied filter)
      (template : LegacyFilter.IsFilterText filter) (source : Node.LastGradient nodes front d back)
      (inFront : Node.AllFiltered o front front') (behind : Node.AllFiltered o back back') :
      Node.Filtered o (.rule head nodes after)
        (.rule head (front' ++ .declaration { d with semicolon := true } ::
          .declaration { d with property := "filter", value := filter } :: back') after)
  | skipped {head : RuleHead} {nodes nodes' : List Node} {after : String}
      (outcome : (RuleReport.of o ⟨head, nodes, after⟩).isApplied = false)
      (inner : Node.AllFiltered o nodes nodes') :
      Node.Filtered o (.rule head nodes after) (.rule head nodes' after)
  | atRule {head : AtRuleHead} {nodes nodes' : List Node} {after : String}
      (inner : Node.AllFiltered o nodes nodes') :
      Node.Filtered o (.atRule head nodes after) (.atRule head nodes' after)
  | statement (head : AtRuleHead) (semicolon : Bool) :
      Node.Filtered o (.statement head semicolon) (.statement head semicolon)
  | declaration (d : Declaration) : Node.Filtered o (.declaration d) (.declaration d)
  | comment (c : Comment) : Node.Filtered o (.comment c) (.comment c)

inductive Node.AllFiltered (o : Options) : List Node → List Node → Prop
  | nil : Node.AllFiltered o [] []
  | cons {n n' : Node} {ns ns' : List Node} (first : Node.Filtered o n n')
      (others : Node.AllFiltered o ns ns') : Node.AllFiltered o (n :: ns) (n' :: ns')

end

/-- The second text is the first one with `n` strings put in. -/
inductive Inserted : Nat → List Char → List Char → Prop
  | same (cs : List Char) : Inserted 0 cs cs
  | insert (front added : List Char) {n : Nat} {cs ds : List Char} (ne_nil : added ≠ [])
      (rest : Inserted n cs ds) : Inserted (n + 1) (front ++ cs) (front ++ added ++ ds)

namespace Inserted

theorem append_left (front : List Char) {n : Nat} {cs ds : List Char} (h : Inserted n cs ds) :
    Inserted n (front ++ cs) (front ++ ds) := by
  cases h with
  | same => exact .same _
  | insert front' added ne_nil rest =>
    rw [← List.append_assoc, ← List.append_assoc, ← List.append_assoc front]
    exact .insert (front ++ front') added ne_nil rest

theorem append {n m : Nat} {cs ds cs' ds' : List Char} (h : Inserted n cs ds)
    (h' : Inserted m cs' ds') : Inserted (n + m) (cs ++ cs') (ds ++ ds') := by
  induction h with
  | same cs => rw [Nat.zero_add]; exact h'.append_left cs
  | @insert front added n cs ds ne_nil rest ih =>
    rw [List.append_assoc, List.append_assoc, Nat.add_right_comm]
    exact .insert front added ne_nil ih

end Inserted

/-! ## One rule -/

namespace RuleReport

theorem of_outcome (o : Options) (r : Rule) : (of o r).outcome = (full o r).outcome := by
  simp only [of]
  split <;> rfl

theorem isFilterText_of_ofCandidate {o : Options} {c : Candidate} {filter : String}
    (h : (ofCandidate o c).1 = .applied filter) : LegacyFilter.IsFilterText filter := by
  simp only [ofCandidate] at h
  split at h
  · exact absurd h nofun
  · next legacy htext =>
    split at h
    · exact absurd h nofun
    · split at h
      · exact absurd h nofun
      · cases h
        exact LegacyFilter.isFilterText_of_ofText htext

/-- A filter is applied for a candidate, and it is written after the template. -/
theorem of_applied {o : Options} {r : Rule} {filter : String}
    (h : (of o r).outcome = .applied filter) :
    LegacyFilter.IsFilterText filter ∧ ∃ c, r.candidate? = some c := by
  rw [of_outcome, full] at h
  split at h
  · exact absurd h nofun
  · next c hc =>
    split at h
    · exact absurd h nofun
    · exact ⟨isFilterText_of_ofCandidate h, c, hc⟩

theorem exists_filter {report : RuleReport} (h : report.isApplied = true) :
    ∃ filter, report.outcome = .applied filter := by
  unfold isApplied at h
  split at h
  · next filter hfilter => exact ⟨filter, hfilter⟩
  · exact absurd h nofun

theorem amend_of_not_applied {report : RuleReport} (h : report.isApplied = false) (r : Rule) :
    report.amend r = r := by
  unfold isApplied at h
  unfold amend
  split
  · next hfilter _ =>
    rw [hfilter] at h
    exact absurd h nofun
  · rfl

theorem amend_of_applied {report : RuleReport} {filter : String} {r : Rule} {c : Candidate}
    (h : report.outcome = .applied filter) (hc : r.candidate? = some c) :
    report.amend r = r.insertAfter c.index (c.declaration.withContent "filter" filter) := by
  rw [amend, h, hc]

end RuleReport

namespace Rule

/-- What is put behind a declaration takes over how that one was ended. -/
theorem insertInto_append (d e : Declaration) (front back : List Node) :
    insertInto d front.length (front ++ .declaration e :: back) =
      front ++ .declaration { e with semicolon := true } ::
        .declaration { d with semicolon := e.semicolon } :: back := by
  induction front with
  | nil => cases back <;> rfl
  | cons n front ih =>
    rw [List.length_cons, List.cons_append, List.cons_append, ← ih]
    cases front <;> rfl

end Rule

/-- The nodes of a block with a filter behind the declaration `d`. -/
def Node.graft (front : List Node) (d : Declaration) (filter : String) (back : List Node) :
    List Node :=
  front ++ .declaration { d with semicolon := true } ::
    .declaration { d with property := "filter", value := filter } :: back

theorem Node.printAll_graft (front : List Node) (d : Declaration) (filter : String)
    (back : List Node) : (Node.printAll (Node.graft front d filter back)).toList =
      (Node.printAll front).toList ++ (({ d with semicolon := true } : Declaration).print.toList ++
        (({ d with property := "filter", value := filter } : Declaration).print.toList ++
          (Node.printAll back).toList)) := by
  simp only [Node.graft, Node.printAll_toList, List.flatMap_append, List.flatMap_cons, Node.print]

section Visit

variable (o : Options)

/-- The node with the filters that its rules get. -/
def Node.withFilters (n : Node) : Node := (n.visit (RuleReport.of o) RuleReport.amend).1

/-- The number of filters that the rules among the nodes get. -/
def Node.filterCount (nodes : List Node) : Nat :=
  (Node.rulesOfAll nodes).countP fun r => (RuleReport.of o r).isApplied

/-- A rule gets its filter, if any, behind a declaration that the visit has left as it was. -/
theorem Node.withFilters_rule (head : RuleHead) (nodes : List Node) (after : String) :
    ((RuleReport.of o ⟨head, nodes, after⟩).isApplied = false ∧
      (Node.rule head nodes after).withFilters o = .rule head (nodes.map (·.withFilters o)) after) ∨
    ∃ filter front d back,
      (RuleReport.of o ⟨head, nodes, after⟩).outcome = .applied filter ∧
      LegacyFilter.IsFilterText filter ∧ Node.LastGradient nodes front d back ∧
      (Node.rule head nodes after).withFilters o = .rule head
        (Node.graft (front.map (·.withFilters o)) d filter (back.map (·.withFilters o))) after := by
  have hvisit : (Node.rule head nodes after).withFilters o = Node.ofRule
      ((RuleReport.of o ⟨head, nodes, after⟩).amend ⟨head, nodes.map (·.withFilters o), after⟩) :=
    Node.visit_rule_fst _ _ head nodes after
  by_cases happlied : (RuleReport.of o ⟨head, nodes, after⟩).isApplied = true
  · obtain ⟨filter, hfilter⟩ := RuleReport.exists_filter happlied
    obtain ⟨htemplate, c, hc⟩ := RuleReport.of_applied hfilter
    obtain ⟨front, back, hlast, hindex, -⟩ := Rule.lastGradient_of_candidate? hc
    have hinner : Rule.candidate? ⟨head, nodes.map (·.withFilters o), after⟩ = some c := by
      rw [← hc]
      refine Rule.candidate?_congr ?_
      have h := Node.declaration?_visitAll (RuleReport.of o) RuleReport.amend nodes
      rw [Node.visitAll_fst] at h
      exact h
    refine .inr ⟨filter, front, c.declaration, back, hfilter, htemplate, hlast, ?_⟩
    have hnodes : nodes = front ++ .declaration c.declaration :: back := hlast.nodes_eq
    have hplace : front.length = (front.map (·.withFilters o)).length := (List.length_map _).symm
    rw [hvisit, RuleReport.amend_of_applied hfilter hinner, Rule.insertAfter, hindex]
    dsimp only
    rw [hnodes, List.map_append, List.map_cons, hplace]
    have hsame : (Node.declaration c.declaration).withFilters o = .declaration c.declaration := rfl
    rw [hsame, Rule.insertInto_append]
    rfl
  · have hnot := Bool.eq_false_iff.2 happlied
    exact .inl ⟨hnot, by rw [hvisit, RuleReport.amend_of_not_applied hnot]; rfl⟩

theorem Node.allFiltered_map {nodes : List Node}
    (h : ∀ n ∈ nodes, Node.Filtered o n (n.withFilters o)) :
    Node.AllFiltered o nodes (nodes.map (·.withFilters o)) := by
  induction nodes with
  | nil => exact .nil
  | cons n nodes ih =>
    exact .cons (h n List.mem_cons_self) (ih fun m hm => h m (List.mem_cons_of_mem n hm))

theorem Node.filtered_withFilters (n : Node) : Node.Filtered o n (n.withFilters o) := by
  induction n using Node.induct with
  | rule head nodes after ih =>
    rcases Node.withFilters_rule o head nodes after with
      ⟨hnot, hrule⟩ | ⟨filter, front, d, back, hfilter, htemplate, hlast, hrule⟩
    · rw [hrule]
      exact .skipped hnot (Node.allFiltered_map o ih)
    · rw [hrule, Node.graft]
      rw [hlast.nodes_eq] at ih
      exact .applied hfilter htemplate hlast
        (Node.allFiltered_map o fun m hm => ih m (List.mem_append_left _ hm))
        (Node.allFiltered_map o fun m hm =>
          ih m (List.mem_append_right _ (List.mem_cons_of_mem _ hm)))
  | atRule head nodes after ih =>
    rw [Node.withFilters, Node.visit_atRule_fst]
    exact .atRule (Node.allFiltered_map o ih)
  | statement head semicolon => exact .statement head semicolon
  | declaration d => exact .declaration d
  | comment c => exact .comment c

/-! ## Texts with filters put in -/

/-- A declaration and its filter are the declaration with one string put in, in front of the
semicolon or behind it. -/
theorem inserted_declaration (d : Declaration) (filter : String) :
    Inserted 1 d.print.toList (({ d with semicolon := true } : Declaration).print.toList ++
      ({ d with property := "filter", value := filter } : Declaration).print.toList) := by
  rcases d with ⟨property, value, important, location, before, between, marker, after, semicolon⟩
  cases semicolon with
  | true =>
    have h := Inserted.insert (Declaration.print ⟨property, value, important, location, before,
      between, marker, after, true⟩).toList (Declaration.print ⟨"filter", filter, important,
        location, before, between, marker, after, true⟩).toList (by simp [Declaration.print])
      (.same [])
    simpa using h
  | false =>
    have h := Inserted.insert (Declaration.print ⟨property, value, important, location, before,
      between, marker, after, false⟩).toList (';' :: (Declaration.print ⟨"filter", filter,
        important, location, before, between, marker, after, false⟩).toList) nofun (.same [])
    simpa [Declaration.print, Declaration.markerText] using h

theorem Node.filterCount_append (ns ms : List Node) :
    Node.filterCount o (ns ++ ms) = Node.filterCount o ns + Node.filterCount o ms := by
  rw [Node.filterCount, Node.rulesOfAll_append, List.countP_append]
  rfl

theorem Node.filterCount_cons (n : Node) (nodes : List Node) :
    Node.filterCount o (n :: nodes) = Node.filterCount o [n] + Node.filterCount o nodes :=
  Node.filterCount_append o [n] nodes

theorem Node.inserted_printAll {nodes : List Node}
    (h : ∀ n ∈ nodes, Inserted (Node.filterCount o [n]) n.print.toList
      (n.withFilters o).print.toList) :
    Inserted (Node.filterCount o nodes) (Node.printAll nodes).toList
      (Node.printAll (nodes.map (·.withFilters o))).toList := by
  induction nodes with
  | nil => exact .same []
  | cons n nodes ih =>
    rw [Node.filterCount_cons, List.map_cons, Node.printAll, Node.printAll, String.toList_append,
      String.toList_append]
    exact (h n List.mem_cons_self).append (ih fun m hm => h m (List.mem_cons_of_mem n hm))

theorem Node.filterCount_atRule (head : AtRuleHead) (nodes : List Node) (after : String) :
    Node.filterCount o [.atRule head nodes after] = Node.filterCount o nodes := by
  simp [Node.filterCount, Node.rulesOfAll, Node.rules]

theorem Node.filterCount_rule (head : RuleHead) (nodes : List Node) (after : String) :
    Node.filterCount o [.rule head nodes after] = Node.filterCount o nodes +
      if (RuleReport.of o ⟨head, nodes, after⟩).isApplied then 1 else 0 := by
  simp [Node.filterCount, Node.rulesOfAll, Node.rules, List.countP_cons]

/-- A string that is put into the nodes of a block is put into the block. -/
theorem inserted_block (head after : String) {n : Nat} {inner inner' : String}
    (h : Inserted n inner.toList inner'.toList) :
    Inserted n (head ++ "\x7b" ++ inner ++ after ++ "\x7d").toList
      (head ++ "\x7b" ++ inner' ++ after ++ "\x7d").toList := by
  have hclosed := (h.append (.same (after ++ "\x7d").toList)).append_left (head ++ "\x7b").toList
  simpa [String.append_assoc] using hclosed

/-- The text of a node has one more string in it for each of its filters. -/
theorem Node.inserted_print (n : Node) :
    Inserted (Node.filterCount o [n]) n.print.toList (n.withFilters o).print.toList := by
  induction n using Node.induct with
  | rule head nodes after ih =>
    rcases Node.withFilters_rule o head nodes after with
      ⟨hnot, hrule⟩ | ⟨filter, front, d, back, hfilter, -, hlast, hrule⟩
    · rw [hrule, Node.filterCount_rule, hnot]
      exact inserted_block head.print after (Node.inserted_printAll o ih)
    · have happlied : (RuleReport.of o ⟨head, nodes, after⟩).isApplied = true := by
        rw [RuleReport.isApplied, hfilter]
      rw [hrule, Node.filterCount_rule, happlied]
      refine inserted_block head.print after ?_
      have hnodes : nodes = front ++ .declaration d :: back := hlast.nodes_eq
      rw [hnodes] at ih ⊢
      have hfront := Node.inserted_printAll o fun m hm => ih m (List.mem_append_left _ hm)
      have hback := Node.inserted_printAll o fun m hm =>
        ih m (List.mem_append_right _ (List.mem_cons_of_mem _ hm))
      have hall := (hfront.append (inserted_declaration d filter)).append hback
      have hcount : Node.filterCount o (front ++ .declaration d :: back) + 1 =
          Node.filterCount o front + 1 + Node.filterCount o back := by
        rw [Node.filterCount_append, Nat.add_right_comm]
        rfl
      have hbefore : (Node.printAll (front ++ .declaration d :: back)).toList =
          (Node.printAll front).toList ++ d.print.toList ++ (Node.printAll back).toList := by
        simp [Node.printAll_toList, Node.print]
      rw [if_pos rfl, hcount, hbefore, Node.printAll_graft]
      simp only [List.append_assoc] at hall ⊢
      exact hall
  | atRule head nodes after ih =>
    rw [Node.withFilters, Node.visit_atRule_fst, Node.filterCount_atRule]
    exact inserted_block head.print after (Node.inserted_printAll o ih)
  | statement head semicolon => exact .same _
  | declaration d => exact .same _
  | comment c => exact .same _

end Visit

namespace Stylesheet

variable (o : Options) (s : Stylesheet)

theorem transform_nodes : (s.transform o).1.nodes = s.nodes.map (·.withFilters o) :=
  Node.visitAll_fst _ _ _

theorem transform_fst :
    (s.transform o).1 = ⟨s.nodes.map (·.withFilters o), s.after, s.origin⟩ := by
  rw [← transform_nodes]
  rfl

/-- The reports are those on the rules as they were, in the order of the rules. -/
theorem applyFilters_reports : (s.applyFilters o).2 = s.rules.map (RuleReport.of o) :=
  Node.visitAll_snd_rules _ _ s.nodes

theorem transform_applied : (s.transform o).2.applied = Node.filterCount o s.nodes := by
  have happlied : (s.transform o).2.applied =
      (s.applyFilters o).2.countP RuleReport.isApplied := rfl
  rw [happlied, applyFilters_reports, List.countP_map]
  rfl

theorem transform_diagnostics : (s.transform o).2.diagnostics =
    s.rules.flatMap fun r => (RuleReport.of o r).diagnostics := by
  have hdiagnostics : (s.transform o).2.diagnostics =
      (s.applyFilters o).2.flatMap RuleReport.diagnostics := rfl
  rw [hdiagnostics, applyFilters_reports, List.flatMap_map]

/-- Every rule that gets a filter has it behind its last declaration with a gradient; everything
else in the tree stays as it was.  So the text has one string put in for each filter. -/
theorem transform_adds (o : Options) (s : Stylesheet) :
    Node.AllFiltered o s.nodes (s.transform o).1.nodes ∧ (s.transform o).1.after = s.after ∧
      (s.transform o).1.origin = s.origin ∧
      (s.transform o).2.applied = s.rules.countP (fun r => (RuleReport.of o r).isApplied) ∧
      Inserted (s.transform o).2.applied s.print.toList (s.transform o).1.print.toList := by
  refine ⟨?_, rfl, rfl, transform_applied o s, ?_⟩
  · rw [transform_nodes]
    exact Node.allFiltered_map o fun n _ => n.filtered_withFilters o
  · rw [transform_applied, Stylesheet.print, Stylesheet.print, transform_nodes, String.toList_append,
      String.toList_append]
    exact (Node.inserted_printAll o fun n _ => n.inserted_print o).append (.same _)

end Stylesheet
end GradientFallback
