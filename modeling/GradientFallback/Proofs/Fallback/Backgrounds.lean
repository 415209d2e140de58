import GradientFallback.Proofs.Fallback.Decision
import GradientFallback.Proofs.Value.Pieces

/-! # Gradients among the tokens of a background

A rule is decided by the texts between the commas of its backgrounds.  The tokens tell the same of
them as long as none misleads the cut: the pieces between the commas outside of parentheses, and the
word that the first token of a piece starts with.
-/
namespace GradientFallback

/-- The word that the text of a candidate starts with. -/
def gradientWord : List Char := "linear-gradient".toList

theorem startsGradient_ofList_iff (part : List Char) :
    StartsGradient (String.ofList part) ↔ gradientWord <+: part := by
  change gradientWord <+: (String.ofList part).toList ↔ gradientWord <+: part
  rw [String.toList_ofList]

/-- A part that starts like a gradient is not empty. -/
theorem isGradientPart_iff (part : List Char) :
    (decide (StartsGradient (String.ofList part)) && !part.isEmpty) = true ↔
      gradientWord <+: part := by
  rw [Bool.and_eq_true, decide_eq_true_eq, startsGradient_ofList_iff]
  refine and_iff_left_of_imp fun hfront => ?_
  cases part with
  | nil => exact absurd (List.prefix_nil.1 hfront) (by decide)
  | cons c cs => rfl

namespace Declaration

def IsBackground (d : Declaration) : Prop :=
  d.property = "background" ∨ d.property = "background-image"

/-- No token of the value misleads its cut. -/
def IsClear (d : Declaration) : Prop := ∀ t ∈ Token.lex .origin d.value.toList, t.isClear = true

instance (d : Declaration) : Decidable d.IsClear :=
  inferInstanceAs (Decidable (∀ t ∈ Token.lex .origin d.value.toList, t.isClear = true))

/-- The number of pieces of the value, cut at the commas outside of all parentheses, whose first
token that is no whitespace starts with the word. -/
def gradientCount (d : Declaration) : Nat :=
  (Token.cutCommas TokenKind.nestParens 0 (Token.lex .origin d.value.toList)).countP
    (Token.opensWith gradientWord)

/-- The parts of a clear value that start like a gradient are as many as the pieces that do. -/
theorem countP_split_eq_gradientCount {d : Declaration} (h : d.IsClear) :
    (Comma.split d.value).countP (fun part => StartsGradient part) = d.gradientCount := by
  have hspelled := Token.spelled_lex .origin d.value.toList
  have hcut : Comma.cutFrom .initial d.value.toList =
      (Token.cutCommas TokenKind.nestParens 0 (Token.lex .origin d.value.toList)).map
        Token.source := by
    rw [← Token.cutFrom_source 0 hspelled h, Token.source_lex]
    rfl
  rw [Comma.split, Comma.partsOf, List.countP_map, List.countP_filter, List.countP_map, hcut,
    List.countP_map, gradientCount]
  apply List.countP_congr
  intro piece hpiece
  obtain ⟨x, hx⟩ := hspelled.of_isInfix ((Token.cutCommas_isInfix _ _ _).2 piece hpiece)
  have hopens : Token.opensWith gradientWord piece = true ↔
      gradientWord <+: trim (Token.source piece) :=
    Token.opensWith_iff (by decide) (by decide) (by decide) hx
  rw [hopens]
  exact isGradientPart_iff (trim (Token.source piece))

theorem isEligible_iff {d : Declaration} (h : d.IsBackground → d.IsClear) :
    d.IsEligible ↔ d.IsBackground ∧ d.gradientCount ≠ 0 := by
  have hpart (hd : d.IsBackground) :
      (∃ part ∈ Comma.split d.value, StartsGradient part) ↔ d.gradientCount ≠ 0 := by
    rw [← countP_split_eq_gradientCount (h hd), ← Nat.pos_iff_ne_zero, List.countP_pos_iff]
    simp only [decide_eq_true_eq]
  constructor
  · exact fun he => ⟨he.property, (hpart he.property).1 he.part⟩
  · exact fun hd => ⟨hd.1, (hpart hd.1).2 hd.2⟩

theorem not_isEligible_iff {d : Declaration} (h : d.IsBackground → d.IsClear) :
    ¬d.IsEligible ↔ (d.IsBackground → d.gradientCount = 0) := by
  rw [isEligible_iff h, not_and, not_ne_iff]

end Declaration

namespace RuleReport

theorem mem_ofCandidate_iff (o : Options) (c : Candidate) :
    Finding.multipleGradients ∈ (ofCandidate o c).2 ↔ 1 < c.count := by
  have hseveral : Finding.multipleGradients ∈
      (if c.count > 1 then [Finding.multipleGradients] else []) ↔ 1 < c.count := by
    split <;> simp_all
  unfold ofCandidate
  dsimp only
  split
  · rw [List.mem_append, hseveral]
    simp
  · split
    · exact hseveral
    · split
      · exact hseveral
      · rw [List.mem_append, hseveral]
        simp

variable (o : Options) {r : Rule}

/-- No gradient is found in a rule if and only if none of its declarations is eligible. -/
theorem outcome_noGradient_iff :
    (of o r).outcome = .noGradient ↔ ∀ d, .declaration d ∈ r.nodes → ¬d.IsEligible := by
  rw [of_outcome]
  constructor
  · intro h
    obtain ⟨remarks, hdecision⟩ : ∃ remarks, Decision o r (full o r).outcome remarks :=
      ⟨_, (decision_iff _ _).2 rfl⟩
    rw [h] at hdecision
    cases hdecision with
    | noGradient none => exact none
    | chosen source free choice => cases choice
  · intro h
    exact (congrArg Prod.fst ((decision_iff _ _).1 (.noGradient h))).symm

/-- More than one gradient is warned of if and only if the source of a rule without a filter has
more than one. -/
theorem multipleGradients_iff :
    (∃ w ∈ (of o r).diagnostics, w.finding = .multipleGradients) ↔
      o.skipWarnings = false ∧ ¬r.HasFilter ∧ ∃ d gradient count, r.Source d gradient count ∧
        1 < count := by
  by_cases hskip : o.skipWarnings = true
  · rw [of, if_pos hskip]
    simp [hskip]
  rw [of, if_neg hskip, Rule.hasFilter_iff]
  rw [Bool.not_eq_true] at hskip
  rcases hc : r.candidate? with _ | c
  · rw [full_of_none hc]
    refine iff_of_false (by simp) ?_
    rintro ⟨-, -, d, gradient, count, source, -⟩
    obtain ⟨c, hc', -⟩ := source.candidate?
    rw [hc] at hc'
    cases hc'
  have source := Rule.source_of_candidate? hc
  by_cases own : r.declares isFilterProperty = true
  · rw [full_of_declares hc own]
    simp [own]
  · have hcount : 1 < c.count ↔ ∃ d gradient count, r.Source d gradient count ∧ 1 < count := by
      refine ⟨fun h => ⟨_, _, _, source, h⟩, ?_⟩
      rintro ⟨d, gradient, count, source', hlt⟩
      rw [(source.unique source').2.2]
      exact hlt
    rw [full_of_free hc (Bool.not_eq_true _ ▸ own), ← hcount, ← mem_ofCandidate_iff o c]
    simp [hskip, own]

end RuleReport

namespace Rule

/-- No token of a background of the rule misleads the cut of its value. -/
def IsClear (r : Rule) : Prop := ∀ d, .declaration d ∈ r.nodes → d.IsBackground → d.IsClear

theorem exists_source {r : Rule} {d : Declaration} {front back : List Node}
    (hnodes : r.nodes = front ++ .declaration d :: back) (hd : d.IsEligible)
    (hback : ∀ e, .declaration e ∈ back → ¬e.IsEligible) :
    ∃ gradient, r.Source d gradient
      ((Comma.split d.value).countP fun part => StartsGradient part) := by
  have hpart : ((Comma.split d.value).find? fun part => StartsGradient part).isSome = true := by
    simpa using hd.part
  obtain ⟨gradient, hfind⟩ := Option.isSome_iff_exists.1 hpart
  obtain ⟨hstarts, before, behind, hsplit, hbefore⟩ := List.find?_eq_some_iff_append.1 hfind
  refine ⟨gradient, hd.property, ⟨front, back, hnodes, hback⟩, ⟨before, behind, hsplit, ?_⟩,
    of_decide_eq_true hstarts, rfl⟩
  exact fun part hpart => by simpa using hbefore part hpart

/-- The source of a clear rule, read off the tokens. -/
theorem exists_source_iff {r : Rule} (hclear : r.IsClear) :
    (∃ d gradient count, r.Source d gradient count ∧ 1 < count) ↔
      ∃ front d back, r.nodes = front ++ .declaration d :: back ∧ d.IsBackground ∧
        (∀ e, .declaration e ∈ back → e.IsBackground → e.gradientCount = 0) ∧
        1 < d.gradientCount := by
  have hbehind {front back : List Node} {d : Declaration}
      (hnodes : r.nodes = front ++ .declaration d :: back) {e : Declaration}
      (he : .declaration e ∈ back) : ¬e.IsEligible ↔ (e.IsBackground → e.gradientCount = 0) := by
    apply Declaration.not_isEligible_iff (hclear e _)
    rw [hnodes]
    exact List.mem_append_right front (List.mem_cons_of_mem _ he)
  constructor
  · rintro ⟨d, gradient, count, source, hcount⟩
    obtain ⟨front, back, hnodes, hback⟩ := source.last
    rw [source.count_eq,
      Declaration.countP_split_eq_gradientCount (hclear d source.mem source.property)] at hcount
    exact ⟨front, d, back, hnodes, source.property, fun e he => (hbehind hnodes he).1 (hback e he),
      hcount⟩
  · rintro ⟨front, d, back, hnodes, hd, hback, hcount⟩
    have hmem : .declaration d ∈ r.nodes := by
      rw [hnodes]
      exact List.mem_append_right front List.mem_cons_self
    have heligible : d.IsEligible :=
      (Declaration.isEligible_iff (hclear d hmem)).2 ⟨hd, by omega⟩
    obtain ⟨gradient, source⟩ :=
      exists_source hnodes heligible fun e he => (hbehind hnodes he).2 (hback e he)
    refine ⟨d, gradient, _, source, ?_⟩
    rw [Declaration.countP_split_eq_gradientCount (hclear d hmem hd)]
    exact hcount

end Rule

namespace RuleReport

/-- A clear rule is passed over if and only if no piece of a background starts with the word.  More
than one gradient is warned of if and only if more than one piece does in the last background where
any does, the rule has no filter and the options do not ask for silence. -/
theorem judged_by_pieces (o : Options) {r : Rule} (hclear : r.IsClear) :
    ((of o r).outcome = .noGradient ↔
      ∀ d, .declaration d ∈ r.nodes → d.IsBackground → d.gradientCount = 0) ∧
    ((∃ w ∈ (of o r).diagnostics, w.finding = .multipleGradients) ↔
      o.skipWarnings = false ∧ ¬r.HasFilter ∧
        ∃ front d back, r.nodes = front ++ .declaration d :: back ∧ d.IsBackground ∧
          (∀ e, .declaration e ∈ back → e.IsBackground → e.gradientCount = 0) ∧
          1 < d.gradientCount) := by
  constructor
  · rw [outcome_noGradient_iff]
    exact forall₂_congr fun d hd => Declaration.not_isEligible_iff (hclear d hd)
  · rw [multipleGradients_iff, Rule.exists_source_iff hclear]

/-- A rule with two gradients behind a bracket. -/
def twoGradientRule : Rule :=
  { Rule.make "a" with nodes := [.declaration (.make "background"
      "[a],linear-gradient(red,blue),linear-gradient(blue,red)")] }

theorem judged_by_pieces_twoGradientRule :
    twoGradientRule.IsClear ∧ (of .default twoGradientRule).outcome ≠ .noGradient ∧
      ∃ w ∈ (of .default twoGradientRule).diagnostics, w.finding = .multipleGradients := by
  obtain ⟨d, hnodes, hd, hclear, hcount⟩ : ∃ d, twoGradientRule.nodes = [.declaration d] ∧
      d.IsBackground ∧ d.IsClear ∧ 1 < d.gradientCount :=
    ⟨_, rfl, .inl rfl, by decide +kernel, by decide +kernel⟩
  have hrule : twoGradientRule.IsClear := by
    intro e he _
    rw [hnodes, List.mem_singleton] at he
    cases he
    exact hclear
  obtain ⟨hnone, hseveral⟩ := judged_by_pieces .default hrule
  refine ⟨hrule, fun h => ?_, hseveral.2 ⟨rfl, ?_, [], d, [], hnodes, hd, ?_, hcount⟩⟩
  · have hzero : d.gradientCount = 0 := hnone.1 h d (by simp [hnodes]) hd
    omega
  · rw [Rule.hasFilter_iff]
    decide +kernel
  · simp

end RuleReport

/-! ## Calls of the function

The calls that a reader of gradients would take do not decide about a rule: their names may be
written with other letters or with escapes, comments may stand in front of them, brackets and
misleading tokens around them.
-/

/-- The first token that is neither whitespace nor a comment is a function with the given name, up
to the case of letters. -/
def Token.opensFunction (name : String) (ts : List Token) : Bool :=
  (ts.dropWhile isTrivia).head?.any fun t =>
    match t.kind with
    | .function n => sameLetters n name
    | _ => false

/-- The number of pieces of the value, cut at the commas outside of all parentheses and brackets,
that a call of the function starts. -/
def Declaration.callCount (d : Declaration) : Nat :=
  (Token.cutCommas Token.nest 0 (Token.lex .origin d.value.toList)).countP
    (Token.opensFunction "linear-gradient")

/-- A background of the rule has a piece that a call of the function starts. -/
def Rule.callsGradient (r : Rule) : Bool :=
  r.declarations.any fun d => isGradientProperty d.property && d.callCount != 0

instance (r : Rule) : Decidable r.HasFilter := decidable_of_iff _ Rule.hasFilter_iff.symm

theorem Stylesheet.exists_rule_of_decide {text : String} {P : Rule → Prop} [DecidablePred P]
    (h : ((parse .strict text).toOption.any fun s => s.rules.any fun r => P r) = true) :
    ∃ s, parse .strict text = .ok s ∧ ∃ r ∈ s.rules, P r := by
  rcases htext : parse .strict text with e | s
  · rw [htext] at h
    cases h
  · rw [htext] at h
    exact ⟨s, rfl, by simpa [Except.toOption] using h⟩

namespace RuleReport

/-- Backgrounds whose calls say another thing than the outcome, and one with two calls where one
gradient is found. -/
theorem misjudged_by_calls :
    List.Forall (fun text => ∃ s, Stylesheet.parse .strict text = .ok s ∧ ∃ r ∈ s.rules,
        ¬r.HasFilter ∧ ¬((of .default r).outcome = .noGradient ↔ r.callsGradient = false))
      ["a\x7bbackground:LINEAR-GRADIENT(red,blue)\x7d",
        "a\x7bbackground:linear-gr\\61 dient()\x7d",
        "a\x7bbackground:linear-gradients()\x7d",
        "a\x7bbackground:b,/**/linear-gradient()\x7d",
        "a\x7bbackground:[a,linear-gradient()]\x7d",
        "a\x7bbackground:b/*,linear-gradient()*/c\x7d",
        "a\x7bbackground:b/*(*/,linear-gradient()\x7d",
        "a\x7bbackground:b(/*)*/,linear-gradient())\x7d",
        "a\x7bbackground:b/*'*/,linear-gradient()\x7d",
        "a\x7bbackground:\"\n,linear-gradient()\x7d",
        "a\x7bbackground:url(a'b),linear-gradient()\x7d",
        "a\x7bbackground:url(a(),linear-gradient()\x7d"] ∧
    ∃ s, Stylesheet.parse .strict
        "a\x7bbackground:linear-gradient(),LINEAR-GRADIENT()\x7d" = .ok s ∧
      ∃ r ∈ s.rules, ¬r.HasFilter ∧ ∃ c ∈ r.candidate?, 1 < c.declaration.callCount ∧
        ∀ w ∈ (of .default r).diagnostics, w.finding ≠ .multipleGradients := by
  constructor
  · refine List.forall_iff_forall_mem.2 fun text htext => Stylesheet.exists_rule_of_decide ?_
    revert text
    decide +kernel
  · obtain ⟨s, hs, r, hr, hfree, c, hc, hone, hseveral⟩ : ∃ s, Stylesheet.parse .strict
        "a\x7bbackground:linear-gradient(),LINEAR-GRADIENT()\x7d" = .ok s ∧
          ∃ r ∈ s.rules, ¬r.HasFilter ∧ ∃ c ∈ r.candidate?, c.count = 1 ∧
            1 < c.declaration.callCount :=
      Stylesheet.exists_rule_of_decide (by decide +kernel)
    refine ⟨s, hs, r, hr, hfree, c, hc, hseveral, fun w hw hfinding => ?_⟩
    obtain ⟨-, -, d, gradient, count, source, hcount⟩ :=
      (multipleGradients_iff .default).1 ⟨w, hw, hfinding⟩
    rw [← ((Rule.source_of_candidate? hc).unique source).2.2, hone] at hcount
    omega

end RuleReport
end GradientFallback
