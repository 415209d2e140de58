import GradientFallback.Proofs.Fallback.Repetition

/-! # Rules do not depend on each other

A rule can be processed before or after the rules around it and inside it.  What is put in for one
rule is a declaration of that rule only, and another rule is judged by its own declarations alone;
so every order of processing gives the same reports and the same tree.
-/
namespace GradientFallback

/-! ## Processing one rule after the other -/

/-- The rule once it has been processed on its own: with its filter, if it gets one. -/
def Rule.processed (o : Options) (r : Rule) : Rule := (RuleReport.of o r).amend r

theorem RuleReport.amend_of_no_candidate {report : RuleReport} {r : Rule}
    (h : r.candidate? = none) : report.amend r = r := by
  rw [amend, h]
  cases report.outcome <;> rfl

theorem RuleReport.amend_head (report : RuleReport) (r : Rule) : (report.amend r).head = r.head := by
  unfold amend
  split <;> rfl

theorem RuleReport.amend_after (report : RuleReport) (r : Rule) :
    (report.amend r).after = r.after := by
  unfold amend
  split <;> rfl

/-- Only declarations are put into a rule. -/
theorem RuleReport.mem_amend {report : RuleReport} {r : Rule} {n : Node}
    (h : n ∈ (report.amend r).nodes) : n ∈ r.nodes ∨ ∃ d, n = .declaration d := by
  by_cases happlied : report.isApplied = true
  · obtain ⟨filter, hfilter⟩ := exists_filter happlied
    rcases hc : r.candidate? with _ | c
    · rw [amend_of_no_candidate hc] at h
      exact .inl h
    · obtain ⟨front, back, hlast, hindex, -⟩ := Rule.lastGradient_of_candidate? hc
      have hnodes : r.nodes = front ++ .declaration c.declaration :: back := hlast.nodes_eq
      rw [amend_of_applied hfilter hc, Rule.insertAfter, hindex] at h
      dsimp only at h
      rw [hnodes, Rule.insertInto_append] at h
      rw [hnodes]
      simp only [List.mem_append, List.mem_cons] at h ⊢
      rcases h with h | h | h | h
      · exact .inl (.inl h)
      · exact .inr ⟨_, h⟩
      · exact .inr ⟨_, h⟩
      · exact .inl (.inr (.inr h))
  · rw [amend_of_not_applied (Bool.eq_false_iff.2 happlied)] at h
    exact .inl h

theorem Rule.rulesOfAll_processed (o : Options) (r : Rule) :
    Node.rulesOfAll (r.processed o).nodes = Node.rulesOfAll r.nodes :=
  RuleReport.rulesOfAll_amend _ r

namespace Node

mutual

/-- Goes through a node from the outside to the inside: a rule is processed first, and then the walk
goes through the nodes that it has by then. -/
def walk (o : Options) : Node → Node × List RuleReport
  | .rule head nodes after =>
    let r := Rule.processed o ⟨head, nodes, after⟩
    let (inner, reports) := walkAll o r.nodes
    (.rule r.head inner r.after, RuleReport.of o ⟨head, nodes, after⟩ :: reports)
  | .atRule head nodes after =>
    let (inner, reports) := walkAll o nodes
    (.atRule head inner after, reports)
  | .statement head semicolon => (.statement head semicolon, [])
  | .declaration d => (.declaration d, [])
  | .comment c => (.comment c, [])
termination_by n => (n.rules.length, sizeOf n)
decreasing_by
  · refine Prod.Lex.left _ _ ?_
    rw [Rule.rulesOfAll_processed, rules, List.length_cons]
    exact Nat.lt_succ_self _
  · exact Prod.Lex.right' _ (Nat.le_refl _) (by simp only [atRule.sizeOf_spec]; omega)

def walkAll (o : Options) : List Node → List Node × List RuleReport
  | [] => ([], [])
  | n :: ns =>
    let (first, reports) := n.walk o
    let (others, more) := walkAll o ns
    (first :: others, reports ++ more)
termination_by nodes => ((rulesOfAll nodes).length, sizeOf nodes)
decreasing_by
  · refine Prod.Lex.right' _ ?_ (by simp only [List.cons.sizeOf_spec]; omega)
    rw [rulesOfAll, List.length_append]
    exact Nat.le_add_right _ _
  · refine Prod.Lex.right' _ ?_ (by simp only [List.cons.sizeOf_spec]; omega)
    rw [rulesOfAll, List.length_append]
    exact Nat.le_add_left _ _

end

end Node

namespace Stylesheet

variable (o : Options)

/-- Processes the rules in the order in which they start, each before the rules inside it. -/
def walk (s : Stylesheet) : Stylesheet × List RuleReport :=
  let (nodes, reports) := Node.walkAll o s.nodes
  ({ s with nodes := nodes }, reports)

/-- Processes the rule with the given number as it stands now. -/
def processRule? (number : Nat) (s : Stylesheet) : Option (Stylesheet × RuleReport) :=
  match s.rules[number]?, s.editRule? (Rule.processed o) number with
  | some r, some s' => some (s', RuleReport.of o r)
  | _, _ => none

/-- Processes the rules with the given numbers, one after the other. -/
def processRules? : List Nat → Stylesheet → Option (Stylesheet × List RuleReport)
  | [], s => some (s, [])
  | number :: order, s =>
    match s.processRule? o number with
    | some (s', report) => (processRules? order s').map fun r => (r.1, report :: r.2)
    | none => none

end Stylesheet

/-! ## Trees in which some rules have been processed -/

namespace Node

variable (o : Options)

mutual

/-- The node with the filters of those rules whose numbers have `p`, where its rules are numbered
from `i` on. -/
def filteredAt (p : Nat → Bool) (i : Nat) : Node → Node
  | .rule head nodes after =>
    let r : Rule := ⟨head, filteredAllAt p (i + 1) nodes, after⟩
    ofRule (if p i then (RuleReport.of o ⟨head, nodes, after⟩).amend r else r)
  | .atRule head nodes after => .atRule head (filteredAllAt p i nodes) after
  | n => n

def filteredAllAt (p : Nat → Bool) (i : Nat) : List Node → List Node
  | [] => []
  | n :: ns => filteredAt p i n :: filteredAllAt p (i + n.rules.length) ns

end

end Node

/-- The rule number `i` in the tree in which the rules whose numbers have `p` are processed. -/
def Rule.filteredAt (o : Options) (p : Nat → Bool) (i : Nat) (r : Rule) : Rule :=
  let r' : Rule := ⟨r.head, Node.filteredAllAt o p (i + 1) r.nodes, r.after⟩
  if p i then (RuleReport.of o r).amend r' else r'

namespace Node

variable {o : Options} {p : Nat → Bool}

theorem filteredAllAt_append (i : Nat) (ns ms : List Node) :
    filteredAllAt o p i (ns ++ ms) =
      filteredAllAt o p i ns ++ filteredAllAt o p (i + (rulesOfAll ns).length) ms := by
  induction ns generalizing i with
  | nil => rfl
  | cons n ns ih =>
    rw [List.cons_append, filteredAllAt, ih, filteredAllAt, rulesOfAll, List.length_append,
      Nat.add_assoc, List.cons_append]

theorem length_filteredAllAt (i : Nat) (ns : List Node) :
    (filteredAllAt o p i ns).length = ns.length := by
  induction ns generalizing i with
  | nil => rfl
  | cons n ns ih => rw [filteredAllAt, List.length_cons, ih, List.length_cons]

theorem declaration?_filteredAllAt (i : Nat) (ns : List Node) :
    (filteredAllAt o p i ns).map declaration? = ns.map declaration? := by
  induction ns generalizing i with
  | nil => rfl
  | cons n ns ih =>
    rw [filteredAllAt, List.map_cons, ih, List.map_cons]
    cases n <;> rfl

/-- What is put into a block does not touch the rules in it. -/
theorem filteredAllAt_amend (report : RuleReport) (r : Rule) (i : Nat) :
    filteredAllAt o p i (report.amend r).nodes =
      (report.amend ⟨r.head, filteredAllAt o p i r.nodes, r.after⟩).nodes := by
  have hcandidate : Rule.candidate? ⟨r.head, filteredAllAt o p i r.nodes, r.after⟩ =
      r.candidate? := Rule.candidate?_congr (declaration?_filteredAllAt i r.nodes)
  by_cases happlied : report.isApplied = true
  · obtain ⟨filter, hfilter⟩ := RuleReport.exists_filter happlied
    rcases hc : r.candidate? with _ | c
    · rw [RuleReport.amend_of_no_candidate hc, RuleReport.amend_of_no_candidate (hcandidate.trans hc)]
    · obtain ⟨front, back, hlast, hindex, -⟩ := Rule.lastGradient_of_candidate? hc
      have hnodes : r.nodes = front ++ .declaration c.declaration :: back := hlast.nodes_eq
      have hplace : c.index = (filteredAllAt o p i front).length :=
        hindex.trans (length_filteredAllAt i front).symm
      have hinner : filteredAllAt o p i r.nodes = filteredAllAt o p i front ++
          .declaration c.declaration ::
            filteredAllAt o p (i + (rulesOfAll front).length) back := by
        rw [hnodes, filteredAllAt_append]
        rfl
      rw [RuleReport.amend_of_applied hfilter hc,
        RuleReport.amend_of_applied hfilter (hcandidate.trans hc), Rule.insertAfter,
        Rule.insertAfter]
      dsimp only
      rw [hinner, hplace, Rule.insertInto_append, ← hplace, hnodes, hindex, Rule.insertInto_append,
        filteredAllAt_append]
      rfl
  · have hnot := Bool.eq_false_iff.2 happlied
    rw [RuleReport.amend_of_not_applied hnot, RuleReport.amend_of_not_applied hnot]

/-- A rule that has been processed has its inner rules processed in the nodes that it got. -/
theorem filteredAt_rule (head : RuleHead) (nodes : List Node) (after : String) (i : Nat) :
    (Node.rule head nodes after).filteredAt o p i =
      .rule head (filteredAllAt o p (i + 1)
        (if p i then Rule.processed o ⟨head, nodes, after⟩ else ⟨head, nodes, after⟩).nodes)
        after := by
  rw [filteredAt]
  split
  · rw [Rule.processed, filteredAllAt_amend, ofRule, RuleReport.amend_head, RuleReport.amend_after]
  · rfl

mutual

/-- Only the rules of a node decide which numbers count. -/
theorem filteredAt_congr {q : Nat → Bool} : ∀ (n : Node) (i : Nat),
    (∀ k, i ≤ k → k < i + n.rules.length → p k = q k) →
      n.filteredAt o p i = n.filteredAt o q i
  | .rule head nodes after, i, h => by
    rw [rules, List.length_cons] at h
    have hinner := filteredAllAt_congr nodes (i + 1) fun k hk hlt => h k (by omega) (by omega)
    rw [filteredAt, filteredAt, hinner, h i (Nat.le_refl i) (by omega)]
  | .atRule head nodes after, i, h => by
    rw [filteredAt, filteredAt, filteredAllAt_congr nodes i h]
  | .statement _ _, _, _ => rfl
  | .declaration _, _, _ => rfl
  | .comment _, _, _ => rfl

theorem filteredAllAt_congr {q : Nat → Bool} : ∀ (ns : List Node) (i : Nat),
    (∀ k, i ≤ k → k < i + (rulesOfAll ns).length → p k = q k) →
      filteredAllAt o p i ns = filteredAllAt o q i ns
  | [], _, _ => rfl
  | n :: ns, i, h => by
    rw [rulesOfAll, List.length_append] at h
    rw [filteredAllAt, filteredAllAt, filteredAt_congr n i fun k hk hlt => h k hk (by omega),
      filteredAllAt_congr ns _ fun k hk hlt => h k (by omega) (by omega)]

end

mutual

/-- Without any rule processed the tree is as it was. -/
theorem filteredAt_none : ∀ (n : Node) (i : Nat), n.filteredAt o (fun _ => false) i = n
  | .rule head nodes after, i => by
    rw [filteredAt, filteredAllAt_none nodes]
    rfl
  | .atRule head nodes after, i => by rw [filteredAt, filteredAllAt_none nodes]
  | .statement _ _, _ => rfl
  | .declaration _, _ => rfl
  | .comment _, _ => rfl

theorem filteredAllAt_none : ∀ (ns : List Node) (i : Nat),
    filteredAllAt o (fun _ => false) i ns = ns
  | [], _ => rfl
  | n :: ns, i => by rw [filteredAllAt, filteredAt_none n, filteredAllAt_none ns]

end

mutual

/-- With all rules processed every rule has its filter. -/
theorem filteredAt_all : ∀ (n : Node) (i : Nat),
    n.filteredAt o (fun _ => true) i = n.withFilters o
  | .rule head nodes after, i => by
    rw [filteredAt, filteredAllAt_all nodes, withFilters, visit_rule_fst]
    rfl
  | .atRule head nodes after, i => by
    rw [filteredAt, filteredAllAt_all nodes, withFilters, visit_atRule_fst]
    rfl
  | .statement _ _, _ => rfl
  | .declaration _, _ => rfl
  | .comment _, _ => rfl

theorem filteredAllAt_all : ∀ (ns : List Node) (i : Nat),
    filteredAllAt o (fun _ => true) i ns = ns.map (·.withFilters o)
  | [], _ => rfl
  | n :: ns, i => by rw [filteredAllAt, filteredAt_all n, filteredAllAt_all ns, List.map_cons]

end

mutual

/-- The rules of the tree are those that it had, some of them processed. -/
theorem rules_filteredAt : ∀ (n : Node) (i : Nat),
    (n.filteredAt o p i).rules = (n.rules.zipIdx i).map fun r => r.1.filteredAt o p r.2
  | .rule head nodes after, i => by
    have hnode : (Node.rule head nodes after).filteredAt o p i =
        ofRule (Rule.filteredAt o p i ⟨head, nodes, after⟩) := rfl
    have hinner : rulesOfAll (Rule.filteredAt o p i ⟨head, nodes, after⟩).nodes =
        rulesOfAll (filteredAllAt o p (i + 1) nodes) := by
      rw [Rule.filteredAt]
      split
      · exact RuleReport.rulesOfAll_amend _ _
      · rfl
    rw [hnode, rules_ofRule, hinner, rulesOfAll_filteredAllAt nodes, rules, List.zipIdx_cons,
      List.map_cons]
  | .atRule head nodes after, i => rulesOfAll_filteredAllAt nodes i
  | .statement _ _, _ => rfl
  | .declaration _, _ => rfl
  | .comment _, _ => rfl

theorem rulesOfAll_filteredAllAt : ∀ (ns : List Node) (i : Nat),
    rulesOfAll (filteredAllAt o p i ns) =
      ((rulesOfAll ns).zipIdx i).map fun r => r.1.filteredAt o p r.2
  | [], _ => rfl
  | n :: ns, i => by
    rw [filteredAllAt, rulesOfAll, rules_filteredAt n, rulesOfAll_filteredAllAt ns, rulesOfAll,
      List.zipIdx_append, List.map_append]

end

theorem length_rules_filteredAt (n : Node) (i : Nat) :
    (n.filteredAt o p i).rules.length = n.rules.length := by
  rw [rules_filteredAt, List.length_map, List.length_zipIdx]

/-! ## The step -/

section EditRule

variable (edit : Rule → Rule)

mutual

/-- A number that is too large for a node is counted on behind it. -/
theorem editRule_of_le : ∀ (n : Node) (number : Nat), n.rules.length ≤ number →
    n.editRule edit number = (n, some (number - n.rules.length))
  | .rule head nodes after, number, h => by
    rw [rules, List.length_cons] at h
    obtain ⟨m, rfl⟩ := Nat.exists_eq_add_of_lt (Nat.lt_of_lt_of_le (Nat.succ_pos _) h)
    rw [Nat.zero_add] at h ⊢
    rw [editRule, editRuleOfAll_of_le nodes m (by omega), rules, List.length_cons,
      Nat.add_sub_add_right]
  | .atRule head nodes after, number, h => by
    rw [rules] at h
    rw [editRule, editRuleOfAll_of_le nodes number h, rules]
  | .statement _ _, _, _ => rfl
  | .declaration _, _, _ => rfl
  | .comment _, _, _ => rfl

theorem editRuleOfAll_of_le : ∀ (ns : List Node) (number : Nat), (rulesOfAll ns).length ≤ number →
    editRuleOfAll edit number ns = (ns, some (number - (rulesOfAll ns).length))
  | [], _, _ => rfl
  | n :: ns, number, h => by
    rw [rulesOfAll, List.length_append] at h
    rw [editRuleOfAll, editRule_of_le n number (by omega)]
    dsimp only
    rw [editRuleOfAll_of_le ns _ (by omega), rulesOfAll, List.length_append, Nat.sub_sub]

end

end EditRule

theorem insert_of_ne {k m : Nat} (h : k ≠ m) : (k == m || p k) = p k := by
  rw [beq_false_of_ne h, Bool.false_or]

/-- In the node, wherever its rules are counted from, one more rule can be processed. -/
def Advances (o : Options) (p : Nat → Bool) (n : Node) : Prop :=
  ∀ i j, j < n.rules.length → p (i + j) = false →
    (n.filteredAt o p i).editRule (Rule.processed o) j =
      (n.filteredAt o (fun k => k == i + j || p k) i, none)

theorem editRuleOfAll_filteredAllAt {ns : List Node} (h : ∀ n ∈ ns, Advances o p n) (i j : Nat)
    (hj : j < (rulesOfAll ns).length) (hp : p (i + j) = false) :
    editRuleOfAll (Rule.processed o) j (filteredAllAt o p i ns) =
      (filteredAllAt o (fun k => k == i + j || p k) i ns, none) := by
  induction ns generalizing i j with
  | nil => exact absurd hj (Nat.not_lt_zero j)
  | cons n ns ih =>
    rw [rulesOfAll, List.length_append] at hj
    rw [filteredAllAt, filteredAllAt, editRuleOfAll]
    by_cases hn : j < n.rules.length
    · rw [h n List.mem_cons_self i j hn hp, filteredAllAt_congr ns (i + n.rules.length)
        fun k hk _ => (insert_of_ne (p := p) (by omega : k ≠ i + j)).symm]
    · have hplace : i + n.rules.length + (j - n.rules.length) = i + j := by omega
      have hothers := ih (fun m hm => h m (List.mem_cons_of_mem n hm)) (i + n.rules.length)
        (j - n.rules.length) (by omega) (by rw [hplace]; exact hp)
      rw [hplace] at hothers
      rw [editRule_of_le _ _ _ (by rw [length_rules_filteredAt]; omega), length_rules_filteredAt]
      dsimp only
      rw [hothers, filteredAt_congr n i
        fun k _ hk => (insert_of_ne (p := p) (by omega : k ≠ i + j)).symm]

/-- A rule is processed as it was, also when rules inside it have been processed. -/
theorem editRule_zero_filteredAt (head : RuleHead) (nodes : List Node) (after : String) (i : Nat)
    (hp : p i = false) :
    ((Node.rule head nodes after).filteredAt o p i).editRule (Rule.processed o) 0 =
      ((Node.rule head nodes after).filteredAt o (fun k => k == i || p k) i, none) := by
  have hinner := filteredAllAt_congr (o := o) nodes (i + 1)
    fun k hk _ => (insert_of_ne (p := p) (by omega : k ≠ i)).symm
  have hsame : RuleReport.of o ⟨head, filteredAllAt o p (i + 1) nodes, after⟩ =
      RuleReport.of o ⟨head, nodes, after⟩ :=
    RuleReport.of_congr o rfl (declaration?_filteredAllAt (i + 1) nodes)
  have hnow : (i == i || false) = true := by rw [BEq.rfl, Bool.true_or]
  simp only [filteredAt, hp, hnow, if_true, Bool.false_eq_true, if_false, ← hinner]
  rw [ofRule, editRule, Rule.processed, hsame]

theorem advances_rule (head : RuleHead) {nodes : List Node} (after : String)
    (ih : ∀ n ∈ nodes, Advances o p n) : Advances o p (.rule head nodes after) := by
  intro i j hj hp
  rw [rules, List.length_cons] at hj
  cases j with
  | zero => exact editRule_zero_filteredAt head nodes after i hp
  | succ m =>
    have hold : (i == i + (m + 1) || p i) = p i := insert_of_ne (by omega)
    have hplace : i + 1 + m = i + (m + 1) := by omega
    have hlength : m < (rulesOfAll (if p i then Rule.processed o ⟨head, nodes, after⟩
        else ⟨head, nodes, after⟩).nodes).length := by
      split
      · rw [Rule.rulesOfAll_processed]
        exact Nat.lt_of_succ_lt_succ hj
      · exact Nat.lt_of_succ_lt_succ hj
    -- The nodes that the rule got are declarations, and those have no rules.
    have hnodes : ∀ n ∈ (if p i then Rule.processed o ⟨head, nodes, after⟩
        else ⟨head, nodes, after⟩).nodes, Advances o p n := by
      intro n hn
      split at hn
      · rcases RuleReport.mem_amend hn with hmem | ⟨d, rfl⟩
        · exact ih n hmem
        · exact fun _ _ hlt => absurd hlt (Nat.not_lt_zero _)
      · exact ih n hn
    rw [filteredAt_rule, filteredAt_rule, editRule, hold]
    rw [← hplace] at hp ⊢
    rw [editRuleOfAll_filteredAllAt hnodes (i + 1) m hlength hp]

/-- Processing one more rule, wherever it stands, gives the tree with that rule processed too. -/
theorem advances (n : Node) : Advances o p n := by
  induction n using induct with
  | rule head nodes after ih => exact advances_rule head after ih
  | atRule head nodes after ih =>
    intro i j hj hp
    rw [filteredAt, editRule, editRuleOfAll_filteredAllAt ih i j hj hp, filteredAt]
  | statement => exact fun _ _ hlt => absurd hlt (Nat.not_lt_zero _)
  | declaration => exact fun _ _ hlt => absurd hlt (Nat.not_lt_zero _)
  | comment => exact fun _ _ hlt => absurd hlt (Nat.not_lt_zero _)

/-! ## The walk -/

theorem walkAll_of_each {ns : List Node}
    (h : ∀ n ∈ ns, n.walk o = (n.withFilters o, n.rules.map (RuleReport.of o))) :
    walkAll o ns = (ns.map (·.withFilters o), (rulesOfAll ns).map (RuleReport.of o)) := by
  induction ns with
  | nil => rw [walkAll]; rfl
  | cons n ns ih =>
    rw [walkAll, h n List.mem_cons_self, ih fun m hm => h m (List.mem_cons_of_mem n hm), rulesOfAll,
      List.map_append, List.map_cons]

/-- The walk comes to every rule once, and to an outer one before the inner ones. -/
theorem walk_eq (n : Node) : n.walk o = (n.withFilters o, n.rules.map (RuleReport.of o)) := by
  induction n using induct with
  | rule head nodes after ih =>
    have hgot : ∀ n ∈ (Rule.processed o ⟨head, nodes, after⟩).nodes,
        n.walk o = (n.withFilters o, n.rules.map (RuleReport.of o)) := by
      intro n hn
      rcases RuleReport.mem_amend hn with hmem | ⟨d, rfl⟩
      · exact ih n hmem
      · rw [walk]
        rfl
    have hnode := filteredAt_rule (o := o) (p := fun _ => true) head nodes after 0
    rw [filteredAt_all, if_pos rfl, filteredAllAt_all] at hnode
    rw [walk, walkAll_of_each hgot, Rule.rulesOfAll_processed, rules, hnode]
    rw [Rule.processed, RuleReport.amend_head, RuleReport.amend_after]
    rfl
  | atRule head nodes after ih =>
    rw [walk, walkAll_of_each ih, withFilters, visit_atRule_fst, rules]
    rfl
  | statement => rw [walk]; rfl
  | declaration => rw [walk]; rfl
  | comment => rw [walk]; rfl

end Node

/-! ## Orders -/

/-- A rule is judged as it was, whichever other rules have been processed. -/
theorem RuleReport.of_filteredAt (o : Options) {p : Nat → Bool} {i : Nat} (h : p i = false)
    (r : Rule) : of o (r.filteredAt o p i) = of o r := by
  simp only [Rule.filteredAt, h, Bool.false_eq_true, if_false]
  exact of_congr o rfl (Node.declaration?_filteredAllAt (i + 1) r.nodes)

namespace Stylesheet

variable (o : Options) (s : Stylesheet)

/-- The stylesheet with the filters of the rules whose numbers have `p`. -/
def filteredAt (p : Nat → Bool) : Stylesheet :=
  { s with nodes := Node.filteredAllAt o p 0 s.nodes }

theorem filteredAt_congr {p q : Nat → Bool}
    (h : ∀ k < s.rules.length, p k = q k) : s.filteredAt o p = s.filteredAt o q := by
  rw [filteredAt, filteredAt, Node.filteredAllAt_congr s.nodes 0 fun k _ hk => h k (by
    rwa [Nat.zero_add] at hk)]

theorem filteredAt_none : s.filteredAt o (fun _ => false) = s := by
  rw [filteredAt, Node.filteredAllAt_none]

theorem filteredAt_all : s.filteredAt o (fun _ => true) = (s.transform o).1 := by
  rw [filteredAt, Node.filteredAllAt_all, transform_fst]

variable {s}

/-- A rule is processed with the same report and the same result whatever has been done before. -/
theorem processRule?_filteredAt {p : Nat → Bool} {k : Nat} {r : Rule}
    (hr : s.rules[k]? = some r) (hp : p k = false) :
    (s.filteredAt o p).processRule? o k =
      some (s.filteredAt o (fun j => j == k || p j), RuleReport.of o r) := by
  have hlt : k < (Node.rulesOfAll s.nodes).length := (List.getElem?_eq_some_iff.1 hr).1
  have hnow : (s.filteredAt o p).rules[k]? = some (r.filteredAt o p k) := by
    rw [rules] at hr
    rw [rules, filteredAt, Node.rulesOfAll_filteredAllAt, List.getElem?_map, List.getElem?_zipIdx, hr,
      Option.map_some, Option.map_some, Nat.zero_add]
  have hedit := Node.editRuleOfAll_filteredAllAt (fun n _ => Node.advances (o := o) n) 0 k hlt
    (by rwa [Nat.zero_add] : p (0 + k) = false)
  rw [Nat.zero_add] at hedit
  have hresult : (s.filteredAt o p).editRule? (Rule.processed o) k =
      some (s.filteredAt o fun j => j == k || p j) := by
    rw [editRule?, filteredAt, hedit]
    rfl
  rw [processRule?, hnow, hresult]
  dsimp only
  rw [RuleReport.of_filteredAt o hp]

theorem processRules?_filteredAt {order : List Nat} {p : Nat → Bool} (hnodup : order.Nodup)
    (horder : ∀ k ∈ order, k < s.rules.length ∧ p k = false) :
    (s.filteredAt o p).processRules? o order =
      some (s.filteredAt o fun k => order.contains k || p k,
        order.filterMap fun k => s.rules[k]?.map (RuleReport.of o)) := by
  induction order generalizing p with
  | nil => rfl
  | cons k order ih =>
    obtain ⟨hk, horder⟩ := List.forall_mem_cons.1 horder
    obtain ⟨hfresh, hnodup⟩ := List.nodup_cons.1 hnodup
    have hr : s.rules[k]? = some s.rules[k] := List.getElem?_eq_getElem hk.1
    have hothers := ih (p := fun j => j == k || p j) hnodup fun j hj => ⟨(horder j hj).1, by
      have hne : j ≠ k := fun h => hfresh (h ▸ hj)
      rw [Node.insert_of_ne hne]
      exact (horder j hj).2⟩
    rw [processRules?, processRule?_filteredAt o hr hk.2]
    dsimp only
    rw [hothers, List.filterMap_cons, hr]
    have hp : s.filteredAt o (fun j => order.contains j || (j == k || p j)) =
        s.filteredAt o (fun j => (k :: order).contains j || p j) :=
      filteredAt_congr o s fun j _ => by
        rw [List.contains_cons, ← Bool.or_assoc, Bool.or_comm (order.contains j)]
    rw [Option.map_some, hp]
    rfl

/-- The rules of a stylesheet are independent.  The warnings are those on the rules as they were, in
the order in which the rules start, and the filters are counted there; a walk that processes a rule
before it goes on inside it does the same, and every other order gives the same stylesheet and the
same report on each rule. -/
theorem transform_independent (o : Options) (s : Stylesheet) :
    (s.transform o).2.diagnostics = s.rules.flatMap (fun r => (RuleReport.of o r).diagnostics) ∧
      (s.transform o).2.applied = s.rules.countP (fun r => (RuleReport.of o r).isApplied) ∧
      s.walk o = ((s.transform o).1, s.rules.map (RuleReport.of o)) ∧
      ∀ order : List Nat, order.Perm (List.range s.rules.length) →
        s.processRules? o order = some ((s.transform o).1,
          order.filterMap fun k => s.rules[k]?.map (RuleReport.of o)) := by
  refine ⟨transform_diagnostics o s, transform_applied o s, ?_, fun order horder => ?_⟩
  · rw [walk, Node.walkAll_of_each fun n _ => Node.walk_eq n, transform_fst]
    rfl
  · have hmem (k : Nat) : k ∈ order ↔ k < s.rules.length := by
      rw [horder.mem_iff, List.mem_range]
    have hrun := processRules?_filteredAt o (s := s) (p := fun _ => false)
      (horder.nodup_iff.2 List.nodup_range) fun k hk => ⟨(hmem k).1 hk, rfl⟩
    have hall : s.filteredAt o (fun k => order.contains k || false) =
        s.filteredAt o fun _ => true := filteredAt_congr o s fun k hk => by
      rw [Bool.or_false, List.contains_iff_mem.2 ((hmem k).2 hk)]
    rwa [filteredAt_none, hall, filteredAt_all] at hrun

/-- A rule with a gradient inside a rule with a gradient, inside an at-rule. -/
def gradientInGradient : Stylesheet :=
  let outer := Declaration.make "background" "linear-gradient(red,blue)"
  let inner := Declaration.make "background" "linear-gradient(to left,red,blue)"
  ⟨[.atRule ⟨"media", "tv", .origin, "", " ", ""⟩
    [.rule ⟨"a", .origin, "", ""⟩
      [.declaration outer, .rule ⟨"b", .origin, "", ""⟩ [.declaration inner] ""] ""] ""], "", none⟩

/-- The inner rule can be processed before the outer one, and both get a filter. -/
theorem transform_independent_inner_first :
    [1, 0].Perm (List.range gradientInGradient.rules.length) ∧
      (∃ reports, gradientInGradient.processRules? .default [1, 0] =
        some ((gradientInGradient.transform .default).1, reports) ∧
        reports.map RuleReport.isApplied = [true, true]) ∧
      (gradientInGradient.transform .default).2.applied = 2 := by
  have horder : [1, 0].Perm (List.range gradientInGradient.rules.length) := by decide
  obtain ⟨-, happlied, -, hrun⟩ := transform_independent .default gradientInGradient
  refine ⟨horder, ⟨_, hrun [1, 0] horder, ?_⟩, ?_⟩
  · decide +kernel
  · rw [happlied]
    decide +kernel

end Stylesheet
end GradientFallback
