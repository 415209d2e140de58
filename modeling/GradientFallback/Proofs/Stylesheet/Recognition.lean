import GradientFallback.Proofs.Stylesheet.Reading
import Mathlib.Data.List.TakeWhile

/-! # What a strict reader gives is laid out

Every token list that a strict reader takes has a lawful layout.  Each item it reads is a construct
of the grammar; what may follow the last construct of a block is known only when the rest of the
block has been read.
-/
namespace GradientFallback

/-- What stops a block: its closing brace, or the end of the text outside all blocks. -/
def Token.EndsBlock (nested : Bool) (ts : List Token) : Prop :=
  if nested then Token.headKind ts = .rightBrace else ts = []

/-- The first token that is no trivia does not close a block. -/
def Token.StaysInside (ts : List Token) : Prop :=
  ∀ t ∈ (ts.dropWhile Token.isTrivia).head?, t.kind ≠ .rightBrace

/-- The item at the front of `front ++ more`, as the grammar has it. -/
inductive Item.Found (nested : Bool) (before : String) (more : List Token) :
    List Token → Item → Prop
  | closing {t : Token} (inside : nested = true) (kind : t.kind = .rightBrace) :
      Found nested before more [t] (.closing before)
  | stray {t : Token} (kind : t.kind.isSign = true) : Found nested before more [t] .stray
  | opening {head : List Token} {o : Opening} (opens : Opens before head o) :
      Found nested before more head (.opening o)
  /-- A node fits in front of whatever the rest of its block is. -/
  | leaf {front : List Token} {n : Node} (ne_nil : front ≠ [])
      (fits : ∀ here tail, more = here ++ tail → Token.EndsBlock nested tail →
        Token.StaysInside here → Leaf nested before front here n) :
      Found nested before more front (.leaf n)

/-- The tokens of a node that no semicolon ends, in front of the trivia behind it.  The end of a text
leaves it in parentheses. -/
inductive Unended (nested : Bool) (before : String) : List Token → List Token → Node → Prop
  | statement {t : Token} {name : String} {run : List Token} (kind : t.kind = .atKeyword name)
      (passes : Token.Passes Item.endsHead 0 run) :
      Unended nested before (t :: run) [] (.statement (.ofRun before name t.location run) false)
  | declaration {p : DeclarationParts} {after : List Token} (inside : nested = true)
      (starts : (Token.headKind p.tokens).startsPlain = true)
      (lawful : Token.depthBehind 0 p.tokens = 0 → p.Lawful)
      (after_trivia : Token.AllTrivia after) (after_nil : p.value = [] → after = []) :
      Unended nested before p.tokens after (.declaration (p.declaration before [] false))

/-- The item at the front of `front ++ more`, as it is read whatever the rest of its block is. -/
inductive Item.Taken (nested : Bool) (before : String) (more : List Token) :
    List Token → Item → Prop
  | closing {t : Token} (inside : nested = true) (kind : t.kind = .rightBrace) :
      Taken nested before more [t] (.closing before)
  | stray {t : Token} (kind : t.kind.isSign = true) : Taken nested before more [t] .stray
  | opening {head : List Token} {o : Opening} (opens : Opens before head o) :
      Taken nested before more head (.opening o)
  | whole {front : List Token} {n : Node} (fits : ∀ rest, Leaf nested before front rest n) :
      Taken nested before more front (.leaf n)
  /-- What no semicolon ends is ended by a closing brace or by the end of the text. -/
  | unended {front after tail : List Token} {n : Node} (unended : Unended nested before front after n)
      (behind : more = after ++ tail) (ends : ∀ t ∈ tail.head?, t.kind = .rightBrace)
      (closed : tail ≠ [] → Token.depthBehind 0 front = 0) : Taken nested before more front (.leaf n)

/-- Trivia is a comment where it is no whitespace. -/
theorem Token.comment_of_isTrivia {t : Token} (hblank : t.isWhitespace = false)
    (h : t.isTrivia = true) : ∃ content, t.kind = .comment content := by
  unfold isTrivia TokenKind.isTrivia at h
  split at h
  · next hk => simp [isWhitespace, TokenKind.isWhitespace, hk] at hblank
  · next content hk => exact ⟨content, hk⟩
  · exact absurd h Bool.false_ne_true

theorem Token.depthBehind_atKeyword {t : Token} {name : String} (kind : t.kind = .atKeyword name)
    (run : List Token) : depthBehind 0 (t :: run) = depthBehind 0 run := by
  rw [depthBehind_cons, kind]
  rfl

namespace Unended

variable {nested : Bool} {before : String} {front after : List Token} {n : Node}

theorem ne_nil (h : Unended nested before front after n) : front ≠ [] := by
  cases h with
  | statement => exact nofun
  | declaration => simp [DeclarationParts.tokens]

theorem after_trivia (h : Unended nested before front after n) : Token.AllTrivia after := by
  cases h with
  | statement => exact Token.allTrivia_nil
  | declaration inside starts lawful after_trivia => exact after_trivia

theorem after_nil (h : Unended false before front after n) : after = [] := by
  cases h with
  | statement => rfl
  | declaration inside => exact absurd inside nofun

/-- Outside of all parentheses it is what a strict reader reads. -/
theorem leaf (h : Unended nested before front after n)
    (closed : nested = true → Token.depthBehind 0 front = 0) : Leaf nested before front after n := by
  cases h with
  | statement kind passes =>
    rw [Token.depthBehind_atKeyword kind] at closed
    exact .lastStatement kind passes closed
  | declaration inside starts lawful after_trivia after_nil =>
    exact .lastDeclaration inside (lawful (closed inside)) after_trivia after_nil

end Unended

namespace Item

theorem isTrivia_of_rightBrace {t : Token} (h : t.kind = .rightBrace) : t.isTrivia = false := by
  rw [Token.isTrivia, h]
  rfl

/-- Two ways to see the trivia at the end of a block agree. -/
theorem trivia_of_endsBlock {here tail trivia rest : List Token} (h : here ++ tail = trivia ++ rest)
    (hhere : Token.StaysInside here) (htail : Token.headKind tail = .rightBrace)
    (htrivia : Token.AllTrivia trivia) (hrest : ∀ t ∈ rest.head?, t.kind = .rightBrace) :
    here = trivia ∧ tail = rest := by
  induction trivia generalizing here with
  | nil =>
    cases here with
    | nil => exact ⟨rfl, h⟩
    | cons t here =>
      have ht : t.kind = .rightBrace := hrest t (by rw [← List.nil_append rest, ← h]; rfl)
      refine absurd ht (hhere t ?_)
      rw [List.dropWhile_cons_of_neg (by rw [isTrivia_of_rightBrace ht]; exact nofun)]
      rfl
  | cons u trivia ih =>
    have hu : u.isTrivia = true := htrivia u List.mem_cons_self
    cases here with
    | nil =>
      rw [List.nil_append] at h
      rw [h] at htail
      rw [isTrivia_of_rightBrace (show u.kind = .rightBrace from htail)] at hu
      exact absurd hu Bool.false_ne_true
    | cons t here =>
      rw [List.cons_append, List.cons_append, List.cons.injEq] at h
      obtain ⟨rfl, h⟩ := h
      have hmore : Token.StaysInside here := by
        rw [Token.StaysInside, List.dropWhile_cons_of_pos hu] at hhere
        exact hhere
      obtain ⟨rfl, hrest⟩ := ih h hmore fun v hv => htrivia v (List.mem_cons_of_mem t hv)
      exact ⟨rfl, hrest⟩

/-! ## One item -/

/-- A cut that does not end at an opening brace crosses none on the way. -/
theorem passes_endsHead {depth : Nat} {run rest : List Token}
    (hrun : Token.Passes endsValue depth run)
    (hbrace : Token.headKind (Token.spanUntil endsHead depth (run ++ rest)).2 ≠ .leftBrace) :
    Token.Passes endsHead depth run := by
  induction run generalizing depth with
  | nil => trivial
  | cons t run ih =>
    rw [List.cons_append, Token.spanUntil] at hbrace
    by_cases hstop : depth = 0 ∧ endsHead t.kind = true
    · rw [if_pos hstop] at hbrace
      have hvalue := hrun.1 hstop.1
      refine absurd ?_ hbrace
      rcases t with ⟨kind, location, text⟩
      cases kind <;> simp_all [endsHead, endsValue, Token.headKind]
    · rw [if_neg hstop] at hbrace
      refine ⟨fun hd => ?_, ih hrun.2 hbrace⟩
      exact Bool.eq_false_iff.2 fun hs => hstop ⟨hd, hs⟩

theorem endsValue_of_endsProperty (k : TokenKind) (h : endsValue k = true) :
    endsProperty k = true := by
  cases k <;> simp_all [endsValue, endsProperty]

theorem endsHead_cases {k : TokenKind} (h : endsHead k = true) :
    k = .leftBrace ∨ k = .semicolon ∨ k = .rightBrace := by
  cases k <;> simp_all [endsHead]

theorem endsValue_cases {k : TokenKind} (h : endsValue k = true) :
    k = .semicolon ∨ k = .rightBrace := by
  cases k <;> simp_all [endsValue]

theorem ne_nil_of_endsBlock {tail : List Token} (h : Token.EndsBlock true tail) : tail ≠ [] := by
  rintro rfl
  exact absurd h nofun

/-- Tokens of a block that stand in front of its end do not start with it. -/
theorem here_nil_of_endsBlock {here tail rest : List Token}
    (h : rest = here ++ tail) (hhere : Token.StaysInside here)
    (hrest : ∀ u ∈ rest.head?, u.kind = .rightBrace) : here = [] := by
  cases here with
  | nil => rfl
  | cons t here =>
    have ht : t.kind = .rightBrace := hrest t (by rw [h]; rfl)
    refine absurd ht (hhere t ?_)
    rw [List.dropWhile_cons_of_neg (by rw [isTrivia_of_rightBrace ht]; exact nofun)]
    rfl

/-- What is taken fits into its block. -/
theorem Taken.found {nested : Bool} {before : String} {more front : List Token} {item : Item}
    (h : Taken nested before more front item) : Found nested before more front item := by
  cases h with
  | closing inside kind => exact .closing inside kind
  | stray kind => exact .stray kind
  | opening opens => exact .opening opens
  | whole fits => exact .leaf (leaf_ne_nil (fits [])) fun here tail _ _ _ => fits here
  | @unended _ after rest n unended behind ends closed =>
    refine .leaf unended.ne_nil fun here tail hmore htail hhere => ?_
    rw [behind] at hmore
    cases nested with
    | true =>
      obtain ⟨rfl, rfl⟩ :=
        trivia_of_endsBlock hmore.symm hhere htail unended.after_trivia ends
      exact unended.leaf fun _ => closed (ne_nil_of_endsBlock htail)
    | false =>
      obtain rfl := unended.after_nil
      obtain rfl := here_nil_of_endsBlock hmore hhere ends
      exact unended.leaf nofun

theorem taken_atRule {nested : Bool} {before name : String} {t : Token} {ts : List Token}
    {item : Item} {width : Nat} (kind : t.kind = .atKeyword name)
    (h : atRule before name t.location ts = (item, width)) :
    ∃ front more, t :: ts = front ++ more ∧ front.length = width + 1 ∧
      Taken nested before more front item := by
  obtain ⟨run, rest, rfl, hrun, hstops⟩ := Token.exists_cut endsHead 0 ts
  rw [atRule_of_passes hrun hstops] at h
  have hlast (hrest : ∀ u ∈ rest.head?, u.kind = .rightBrace) :
      Taken nested before rest (t :: run)
        (.leaf (.statement (.ofRun before name t.location run) false)) := by
    refine .unended (.statement kind hrun) rfl hrest fun hne => ?_
    obtain ⟨u, rest, rfl⟩ := List.exists_cons_of_ne_nil hne
    rw [Token.depthBehind_atKeyword kind]
    exact (hstops u rfl).1
  cases rest with
  | nil =>
    cases h
    exact ⟨t :: run, [], by simp, rfl, hlast nofun⟩
  | cons u rest =>
    rcases endsHead_cases (hstops u rfl).2 with hu | hu | hu
    · simp only [Token.headKind, hu, Prod.mk.injEq] at h
      obtain ⟨rfl, rfl⟩ := h
      exact ⟨t :: run ++ [u], rest, by simp, by simp,
        .opening (.atRule kind hrun (hstops u rfl).1 hu)⟩
    · simp only [Token.headKind, hu, Prod.mk.injEq] at h
      obtain ⟨rfl, rfl⟩ := h
      exact ⟨t :: run ++ [u], rest, by simp, by simp, .whole fun _ =>
        .statement kind hrun (hstops u rfl).1 hu⟩
    · simp only [Token.headKind, hu, Prod.mk.injEq] at h
      obtain ⟨rfl, rfl⟩ := h
      exact ⟨t :: run, u :: rest, by simp, rfl, hlast fun v hv => by cases hv; exact hu⟩

/-- A run falls into what it says and the trivia behind. -/
theorem exists_significant (run : List Token) :
    ∃ written gap, run = written ++ gap ∧ (∀ t ∈ written.getLast?, t.isTrivia = false) ∧
      Token.AllTrivia gap :=
  ⟨_, _, (dropTrailing_append_trailing Token.isTrivia run).symm, dropTrailing_last _ run,
    trailing_all _ run⟩

/-- Tokens behind a colon are trivia, a value with trivia behind it, and what stops the value. -/
theorem exists_value (ts : List Token) :
    ∃ gap value after rest, ts = gap ++ (value ++ after ++ rest) ∧ Token.AllTrivia gap ∧
      (∀ t ∈ value.head?, t.isTrivia = false) ∧ (∀ t ∈ value.getLast?, t.isTrivia = false) ∧
      Token.AllTrivia after ∧ (value = [] → after = []) ∧
      Token.Passes endsValue 0 (value ++ after) ∧
      ∀ t ∈ rest.head?, Token.depthBehind 0 (value ++ after) = 0 ∧ endsValue t.kind = true := by
  obtain ⟨run, rest, hcut, hrun, hstops⟩ :=
    Token.exists_cut endsValue 0 (ts.dropWhile Token.isTrivia)
  obtain ⟨value, after, rfl, hlast, hafter⟩ := exists_significant run
  have hhead : ∀ t ∈ (value ++ after).head?, t.isTrivia = false := by
    intro t ht
    have hfirst : (ts.dropWhile Token.isTrivia).head? = some t := by
      rw [hcut, List.head?_append, show (value ++ after).head? = some t from ht]
      rfl
    have hnot := List.head?_dropWhile_not Token.isTrivia ts
    rw [hfirst] at hnot
    exact hnot
  refine ⟨ts.takeWhile Token.isTrivia, value, after, rest, ?_, fun t => List.mem_takeWhile_imp, ?_,
    hlast, hafter, ?_, hrun, hstops⟩
  · rw [← hcut, List.takeWhile_append_dropWhile]
  · intro t ht
    exact hhead t (by rw [List.head?_append, show value.head? = some t from ht]; rfl)
  · rintro rfl
    cases after with
    | nil => rfl
    | cons t after =>
      have ht := hafter t List.mem_cons_self
      rw [hhead t rfl] at ht
      exact absurd ht Bool.false_ne_true

/-- A declaration leaves as many parentheses open as its value. -/
theorem depthBehind_tokens {p : DeclarationParts} {after : List Token}
    (hname : Token.depthBehind 0 (p.name ++ p.nameGap) = 0) (colon : p.colon.kind = .colon)
    (gap : Token.AllTrivia p.gap) (hafter : Token.AllTrivia after) :
    Token.depthBehind 0 p.tokens = Token.depthBehind 0 (p.value ++ after) := by
  rw [DeclarationParts.tokens, Token.depthBehind_append, depthBehind_parts hname colon gap,
    Token.depthBehind_append 0 p.value, Token.depthBehind_trivia hafter]

/-- A value is only missing behind the name of a custom property. -/
theorem has_value_of_read {p : DeclarationParts}
    (h : ¬((splitMarker (Token.source p.value)).1 = [] ∧
      (sourceText p.name).toList.take 2 ≠ ['-', '-'])) :
    p.split.1 ≠ [] ∨ ∃ cs, Token.source p.name = '-' :: '-' :: cs := by
  by_cases hs : p.split.1 = []
  · have htwo : (Token.source p.name).take 2 = ['-', '-'] :=
      Decidable.byContradiction fun hno => h ⟨hs, by simpa [sourceText] using hno⟩
    exact .inr ⟨_, by rw [← List.take_append_drop 2 (Token.source p.name), htwo]; rfl⟩
  · exact .inl hs

/-- A cut declaration that is no head of a rule is lawful. -/
theorem lawful_of_cuts {p : DeclarationParts} {after rest : List Token} (name_ne_nil : p.name ≠ [])
    (starts : (Token.headKind p.name).startsPlain = true)
    (name_last : ∀ t ∈ p.name.getLast?, t.isTrivia = false) (nameGap : Token.AllTrivia p.nameGap)
    (colon : p.colon.kind = .colon) (gap : Token.AllTrivia p.gap)
    (value_first : ∀ t ∈ p.value.head?, t.isTrivia = false)
    (value_last : ∀ t ∈ p.value.getLast?, t.isTrivia = false)
    (hname : Token.Passes endsProperty 0 (p.name ++ p.nameGap))
    (hnameClosed : Token.depthBehind 0 (p.name ++ p.nameGap) = 0)
    (hvalue : Token.Passes endsValue 0 (p.value ++ after))
    (closed : Token.depthBehind 0 p.tokens = 0)
    (hbrace : Token.headKind
      (Token.spanUntil endsHead 0 (p.tokens ++ (after ++ rest))).2 ≠ .leftBrace)
    (has_value : p.split.1 ≠ [] ∨ ∃ cs, Token.source p.name = '-' :: '-' :: cs) : p.Lawful := by
  have hfront := depthBehind_parts hnameClosed colon gap
  have hpasses : Token.Passes endsValue 0 p.tokens := by
    rw [DeclarationParts.tokens, Token.passes_append, hfront, Token.passes_append, hnameClosed,
      Token.passes_cons, colon]
    exact ⟨⟨hname.mono endsValue_of_endsProperty, fun _ => rfl,
      Token.passes_trivia isTrivia_endsValue gap _⟩, (Token.passes_append.1 hvalue).1⟩
  rw [Token.depthBehind_append, Token.depthBehind_trivia nameGap] at hnameClosed
  exact ⟨name_ne_nil, starts, name_last, nameGap, colon, gap, value_first, value_last,
    (Token.passes_append.1 hname).1, hnameClosed, passes_endsHead hpasses hbrace, closed, has_value⟩

/-- The parts of a declaration make one, whatever stops it. -/
theorem taken_of_parts (before : String) {p : DeclarationParts} {after rest : List Token}
    (starts : (Token.headKind p.tokens).startsPlain = true)
    (hp : Token.depthBehind 0 p.tokens = 0 → p.Lawful) (hafter : Token.AllTrivia after)
    (hnil : p.value = [] → after = [])
    (hends : ∀ t ∈ rest.head?, Token.depthBehind 0 p.tokens = 0 ∧ endsValue t.kind = true) :
    ∃ front more, p.tokens ++ after ++ rest = front ++ more ∧
      (front.length = p.tokens.length +
        if Token.headKind rest = .semicolon then after.length + 1 else 0) ∧
      Taken true before more front (.leaf (.declaration (p.declaration before
        (if Token.headKind rest = .semicolon then after else [])
        (Token.headKind rest = .semicolon)))) := by
  have hlast : Unended true before p.tokens after (.declaration (p.declaration before [] false)) :=
    .declaration rfl starts hp hafter hnil
  cases rest with
  | nil =>
    exact ⟨p.tokens, after, by simp, by simp [Token.headKind],
      .unended hlast (List.append_nil after).symm nofun fun hne => absurd rfl hne⟩
  | cons u rest =>
    obtain ⟨hclosed, hu⟩ := hends u rfl
    rcases endsValue_cases hu with hu | hu
    · refine ⟨p.tokens ++ after ++ [u], rest, by simp, by simp [Token.headKind, hu],
        .whole fun _ => ?_⟩
      simp only [Token.headKind, hu, if_true, decide_true]
      exact .declaration rfl (hp hclosed) hafter hnil hu
    · refine ⟨p.tokens, after ++ u :: rest, by simp, by simp [Token.headKind, hu], ?_⟩
      simp only [Token.headKind, hu]
      exact .unended hlast rfl (fun v hv => by cases hv; exact hu) fun _ => hclosed

/-- A declaration that is read falls into parts. -/
theorem taken_declaration {before : String} {finish : Location} {t : Token} {ts : List Token}
    {item : Item} {width : Nat} (hplain : t.kind.startsPlain = true)
    (hbrace : Token.headKind (Token.spanUntil endsHead 0 (t :: ts)).2 ≠ .leftBrace)
    (h : declaration before t.location finish (t :: ts) = .ok (item, width)) :
    ∃ front more, t :: ts = front ++ more ∧ front.length = width ∧
      Taken true before more front item := by
  obtain ⟨run, rest, hts, hrun, hstops⟩ := Token.exists_cut endsProperty 0 (t :: ts)
  obtain ⟨name, nameGap, rfl, hnameLast, hnameGap⟩ := exists_significant run
  have hcut := Token.spanUntil_of_passes hrun hstops
  have hwritten : significant (name ++ nameGap) = name := significant_append hnameLast hnameGap
  rw [declaration, hts, hcut] at h
  dsimp only at h
  split at h
  · next place sign more =>
    rw [hwritten] at h
    split at h
    · cases h
    · next hname =>
      obtain ⟨gap, value, after, rest, rfl, hgap, hfirst, hlast, hafter, hnil, hpasses, hends⟩ :=
        exists_value more
      rw [List.drop_left, declarationValue_of_parts _ _ _ _ _ hgap hfirst hlast hafter hnil hpasses
        hends] at h
      split at h
      · cases h
      · next hvalue =>
        simp only [Except.map, Except.ok.injEq, Prod.mk.injEq] at h
        obtain ⟨rfl, rfl⟩ := h
        let p : DeclarationParts := ⟨name, nameGap, ⟨.colon, place, sign⟩, gap, value⟩
        have hsplit : t :: ts = p.tokens ++ after ++ rest := by simp [hts, p, DeclarationParts.tokens]
        obtain ⟨u, us, rfl⟩ := List.exists_cons_of_ne_nil hname
        obtain rfl : t = u := by
          simp only [List.cons_append, List.cons.injEq] at hts
          exact hts.1
        have hcustom := has_value_of_read (p := p) hvalue
        have hclosed := depthBehind_tokens (p := p) (hstops _ rfl).1 rfl hgap hafter
        have hlawful (hdepth : Token.depthBehind 0 p.tokens = 0) : p.Lawful := by
          rw [hsplit, List.append_assoc] at hbrace
          exact lawful_of_cuts hname hplain hnameLast hnameGap rfl hgap hfirst hlast hrun
            (hstops _ rfl).1 hpasses hdepth hbrace hcustom
        have hstarts : (Token.headKind p.tokens).startsPlain = true := hplain
        have hstops : ∀ v ∈ rest.head?, Token.depthBehind 0 p.tokens = 0 ∧ endsValue v.kind = true :=
          fun v hv => ⟨hclosed.trans (hends v hv).1, (hends v hv).2⟩
        obtain ⟨front, more, hfront, hlength, htaken⟩ :=
          taken_of_parts before hstarts hlawful hafter hnil hstops
        refine ⟨front, more, hsplit.trans hfront, ?_, ?_⟩
        · rw [hlength]
          simp only [p, DeclarationParts.tokens, List.length_append, List.length_cons]
          split <;> omega
        · simpa [p, DeclarationParts.declaration, DeclarationParts.split, sourceText, Token.start,
            String.append_assoc] using htaken
  · cases h

/-- What stands in front of an opening brace is the head of a rule. -/
theorem taken_rule (nested : Bool) (before : String) {t : Token} {ts : List Token}
    (hplain : t.kind.startsPlain = true)
    (hbrace : Token.headKind (Token.spanUntil endsHead 0 (t :: ts)).2 = .leftBrace) :
    ∃ front more, t :: ts = front ++ more ∧
      front.length = (Token.spanUntil endsHead 0 (t :: ts)).1.length + 1 ∧
      Taken nested before more front (.opening (.rule (.ofRun before t.location
        (Token.spanUntil endsHead 0 (t :: ts)).1))) := by
  obtain ⟨run, rest, hts, hrun, hstops⟩ := Token.exists_cut endsHead 0 (t :: ts)
  rw [hts, Token.spanUntil_of_passes hrun hstops] at hbrace ⊢
  cases rest with
  | nil => exact absurd hbrace nofun
  | cons u rest =>
    have hhead : ∃ us, run ++ [u] = t :: us := by
      cases run with
      | nil => exact ⟨[], by rw [List.nil_append] at hts; cases hts; rfl⟩
      | cons v run => exact ⟨run ++ [u], by rw [List.cons_append] at hts; cases hts; rfl⟩
    obtain ⟨us, hus⟩ := hhead
    refine ⟨run ++ [u], rest, by simp, by simp, ?_⟩
    have hopens : Opens before (run ++ [u]) _ :=
      .rule hbrace (by rw [hus]; exact hplain) hrun (hstops u rfl).1
    rw [hus] at hopens ⊢
    exact .opening hopens

/-- An item that is read is taken from the front of the tokens. -/
theorem taken_readAt {nested : Bool} {before : String} {finish : Location} {t : Token}
    {ts : List Token} {item : Item} {width : Nat} (hblank : t.isWhitespace = false)
    (h : readAt nested finish before t ts = .ok (item, width)) :
    ∃ front more, t :: ts = front ++ more ∧ front.length = width ∧
      Taken nested before more front item := by
  have hattempt := attempt_readAt nested finish before t ts
  generalize readAt nested finish before t ts = r at h hattempt
  cases hattempt with
  | closing kind inside =>
    cases h
    exact ⟨[t], ts, rfl, rfl, .closing inside kind⟩
  | unexpected kind outside => cases h
  | stray kind =>
    cases h
    exact ⟨[t], ts, rfl, rfl, .stray kind⟩
  | comment kind =>
    cases h
    exact ⟨[t], ts, rfl, rfl, .whole fun _ => .comment kind⟩
  | atRule kind =>
    cases h
    exact taken_atRule kind rfl
  | rule plain brace =>
    cases h
    exact taken_rule nested before (plain hblank) brace
  | declaration plain brace inside =>
    obtain rfl := inside
    exact taken_declaration (plain hblank) brace h
  | misplaced plain brace outside => cases h

/-- Reading gives the blanks behind the last node, or an item behind blanks. -/
theorem found_read {nested : Bool} {finish : Location} {ts : List Token} {item : Item}
    {width : Nat} (h : read false nested finish ts = .ok (item, width)) :
    ∃ ws, Token.AllBlank ws ∧ ((ts = ws ∧ item = .ending (sourceText ws)) ∨
      ∃ front more, ts = ws ++ (front ++ more) ∧ width = (ws ++ front).length ∧
        Found nested (sourceText ws) more front item) := by
  rcases Token.all_or_first Token.isWhitespace ts with hblank | ⟨ws, t, more, hblank, hfirst, rfl⟩
  · rw [read_blanks hblank] at h
    cases h
    exact ⟨ts, hblank, .inl ⟨rfl, rfl⟩⟩
  · rw [read_of_blanks hblank hfirst] at h
    rcases hat : readAt nested finish (sourceText ws) t more with e | ⟨item', width'⟩
    · rw [hat] at h
      exact absurd h nofun
    · rw [hat] at h
      cases h
      obtain ⟨front, more', hfront, hlength, htaken⟩ := taken_readAt hfirst hat
      refine ⟨ws, hblank, .inr ⟨front, more', by rw [hfront], ?_, htaken.found⟩⟩
      rw [List.length_append, hlength]

/-! ## Whole token lists -/

theorem staysInside_append {ws ts : List Token} (hws : Token.AllTrivia ws)
    (hts : Token.StaysInside ts) : Token.StaysInside (ws ++ ts) := by
  rw [Token.StaysInside, List.dropWhile_append_of_pos hws]
  exact hts

theorem staysInside_cons {t : Token} (ts : List Token) (ht : t.isTrivia = false)
    (hbrace : t.kind ≠ .rightBrace) : Token.StaysInside (t :: ts) := by
  rw [Token.StaysInside, List.dropWhile_cons_of_neg (by rw [ht]; exact nofun)]
  rintro u ⟨⟩
  exact hbrace

theorem startsPlain_stays {t : Token} (h : t.kind.startsPlain = true) :
    t.isTrivia = false ∧ t.kind ≠ .rightBrace := by
  rcases t with ⟨kind, location, text⟩
  cases kind <;> simp_all [TokenKind.startsPlain, Token.isTrivia, TokenKind.isTrivia]

theorem isSign_stays {t : Token} (h : t.kind.isSign = true) :
    t.isTrivia = false ∧ t.kind ≠ .rightBrace := by
  rcases t with ⟨kind, location, text⟩
  cases kind <;> simp_all [TokenKind.isSign, Token.isTrivia, TokenKind.isTrivia]

theorem atKeyword_stays {t : Token} {name : String} (h : t.kind = .atKeyword name) :
    t.isTrivia = false ∧ t.kind ≠ .rightBrace := by
  rw [Token.isTrivia, h]
  exact ⟨rfl, TokenKind.noConfusion⟩

theorem parts_staysInside {p : DeclarationParts} (hp : p.Lawful) (more : List Token) :
    Token.StaysInside (p.tokens ++ more) := by
  obtain ⟨t, ts, hname⟩ := List.exists_cons_of_ne_nil hp.name_ne_nil
  have hplain := hp.starts
  rw [hname] at hplain
  have ht := startsPlain_stays (show t.kind.startsPlain = true from hplain)
  rw [DeclarationParts.tokens, hname]
  exact staysInside_cons _ ht.1 ht.2

theorem leaf_staysInside {nested : Bool} {before : String} {ts rest more : List Token} {n : Node}
    (h : Leaf nested before ts rest n) (hmore : Token.StaysInside more) :
    Token.StaysInside (ts ++ more) := by
  cases h with
  | @comment t content _ kind =>
    refine staysInside_append (fun u hu => ?_) hmore
    rw [List.mem_singleton.1 hu, Token.isTrivia, kind]
    rfl
  | statement kind => exact staysInside_cons _ (atKeyword_stays kind).1 (atKeyword_stays kind).2
  | lastStatement kind => exact staysInside_cons _ (atKeyword_stays kind).1 (atKeyword_stays kind).2
  | declaration inside lawful =>
    rw [List.append_assoc, List.append_assoc]
    exact parts_staysInside lawful _
  | lastDeclaration inside lawful => exact parts_staysInside lawful _

theorem opens_staysInside {before : String} {head : List Token} {o : Opening}
    (h : Opens before head o) (more : List Token) : Token.StaysInside (head ++ more) := by
  cases h with
  | @rule run brace ends starts =>
    obtain ⟨t, ts, hhead⟩ := List.exists_cons_of_ne_nil (List.concat_ne_nil brace run)
    rw [hhead] at starts ⊢
    have ht := startsPlain_stays (show t.kind.startsPlain = true from starts)
    exact staysInside_cons _ ht.1 ht.2
  | atRule kind => exact staysInside_cons _ (atKeyword_stays kind).1 (atKeyword_stays kind).2

end Item

namespace Layout

open Item

theorem staysInside {nested : Bool} {c : Layout} (hc : c.Lawful nested) :
    Token.StaysInside c.tokens := by
  induction c with
  | ending blanks =>
    rw [tokens, ← List.append_nil blanks]
    refine staysInside_append hc.allTrivia fun t ht => ?_
    cases ht
  | sign blanks t rest ih =>
    have ht := isSign_stays hc.2.1
    exact staysInside_append hc.1.allTrivia (staysInside_cons _ ht.1 ht.2)
  | leaf blanks ts n rest ih =>
    rw [tokens, List.append_assoc]
    exact staysInside_append hc.1.allTrivia (leaf_staysInside hc.2.1 (ih hc.2.2))
  | block blanks head o inner innerEnd rest ihInner ihRest =>
    rw [tokens, List.append_assoc, List.append_assoc]
    exact staysInside_append hc.1.allTrivia (opens_staysInside hc.2.1 _)

theorem found_ne_nil {nested : Bool} {before : String} {front more : List Token} {item : Item}
    (h : Found nested before more front item) : front ≠ [] := by
  cases h with
  | closing => exact nofun
  | stray => exact nofun
  | opening opens => exact opens_ne_nil opens
  | leaf ne_nil => exact ne_nil

theorem exists_brace_of_endsBlock {tail : List Token} (h : Token.EndsBlock true tail) :
    ∃ t ts, tail = t :: ts ∧ t.kind = .rightBrace := by
  obtain ⟨t, ts, rfl⟩ := List.exists_cons_of_ne_nil (ne_nil_of_endsBlock h)
  exact ⟨t, ts, rfl, h⟩

/-- At the end of the text no block is open. -/
theorem exists_layout_blanks {finish : Location} {d : Nat} {ws : List Token} {items : List Item}
    (hws : Token.AllBlank ws) (h : itemsFrom finish d [] = .ok items) :
    ∃ (c : Layout) (tail : List Token), c.Lawful (d != 0) ∧ ws = c.tokens ++ tail ∧
      Token.EndsBlock (d != 0) tail ∧
      (d ≠ 0 → ∃ more, itemsFrom finish (d - 1) (tail.drop 1) = .ok more) := by
  by_cases hd : d = 0
  · subst hd
    exact ⟨ending ws, [], hws, (List.append_nil ws).symm, rfl, fun h0 => absurd rfl h0⟩
  · rw [itemsFrom_nil, if_neg hd] at h
    exact absurd h nofun

/-- What is read with `d` blocks open is a lawful layout of the innermost block up to its end. -/
theorem exists_layout {finish : Location} {d : Nat} {ts : List Token} {items : List Item}
    (h : itemsFrom finish d ts = .ok items) :
    ∃ (c : Layout) (tail : List Token), c.Lawful (d != 0) ∧ ts = c.tokens ++ tail ∧
      Token.EndsBlock (d != 0) tail ∧
      (d ≠ 0 → ∃ more, itemsFrom finish (d - 1) (tail.drop 1) = .ok more) := by
  -- A block takes two steps: its inside up to the brace, and what stands behind the brace.
  induction hl : ts.length using Nat.strongRecOn generalizing d ts items with
  | ind l ih =>
    by_cases hts : ts = []
    · subst hts
      exact exists_layout_blanks (List.forall_mem_nil _) h
    rcases hread : Item.read false (d != 0) finish ts with e | ⟨item, width⟩
    · rw [itemsFrom_of_error hts hread] at h
      cases h
    obtain ⟨ws, hws, ⟨rfl, rfl⟩ | ⟨front, more, rfl, rfl, hfound⟩⟩ := found_read hread
    · have hall : Item.read false (d != 0) finish (ts ++ []) =
          .ok (.ending (sourceText ts), ts.length) := by
        rw [List.append_nil]
        exact read_blanks hws
      rw [← List.append_nil ts, itemsFrom_of_read [] hall hts] at h
      obtain ⟨items, h, -⟩ := exists_of_map_eq_ok h
      exact exists_layout_blanks hws h
    · have hne := found_ne_nil hfound
      have hlength : more.length < l := by
        have hpos := List.length_pos_iff.2 hne
        rw [← hl, List.length_append, List.length_append]
        omega
      rw [← List.append_assoc] at hread h
      rw [itemsFrom_of_read more hread (by simp [hne])] at h
      obtain ⟨items, h, -⟩ := exists_of_map_eq_ok h
      cases hfound with
      | @closing t inside kind =>
        have hd : d ≠ 0 := by simpa using inside
        refine ⟨ending ws, t :: more, hws, rfl, ?_, fun _ => ⟨items, h⟩⟩
        rw [inside]
        exact kind
      | @stray t kind =>
        obtain ⟨c, tail, hc, rfl, htail, hmore⟩ := ih _ hlength h rfl
        exact ⟨sign ws t c, tail, ⟨hws, kind, hc⟩, by simp [tokens], htail, hmore⟩
      | @leaf _ n ne_nil fits =>
        obtain ⟨c, tail, hc, rfl, htail, hmore⟩ := ih _ hlength h rfl
        have hleaf := fits c.tokens tail rfl htail (staysInside hc)
        exact ⟨leaf ws front n c, tail, ⟨hws, hleaf, hc⟩, by simp [tokens], htail, hmore⟩
      | @opening _ o opens =>
        obtain ⟨inner, tail, hinner, rfl, htail, hmore⟩ := ih _ hlength h rfl
        obtain ⟨innerEnd, more, rfl, hend⟩ := exists_brace_of_endsBlock htail
        obtain ⟨items', h'⟩ := hmore (Nat.succ_ne_zero d)
        have hshort : more.length < l := by
          rw [List.length_append, List.length_cons] at hlength
          omega
        obtain ⟨rest, tail, hrest, rfl, htail, hmore⟩ := ih _ hshort h' rfl
        exact ⟨block ws front o inner innerEnd rest, tail, ⟨hws, opens, hinner, hend, hrest⟩,
          by simp [tokens], htail, hmore⟩

/-! ## Stylesheets -/

/-- The stylesheet that a layout makes. -/
def sheet (origin : Option String) (c : Layout) : Stylesheet := ⟨c.nodes, c.after, origin⟩

theorem itemsFrom_blanks (finish : Location) {ws : List Token} (hws : Token.AllBlank ws) :
    itemsFrom finish 0 ws = .ok (if ws = [] then [] else [.ending (sourceText ws)]) := by
  by_cases hne : ws = []
  · rw [hne, itemsFrom_nil]
    rfl
  · have hread : Item.read false (0 != 0) finish (ws ++ []) =
        .ok (.ending (sourceText ws), ws.length) := by
      rw [List.append_nil]
      exact read_blanks hws
    rw [if_neg hne, ← List.append_nil ws, itemsFrom_of_read [] hread hne, List.append_nil]
    rfl

theorem ofTokens_strict {config : ParseConfig} (hstrict : config.lenient = false)
    (finish : Location) (ts : List Token) :
    Stylesheet.ofTokens config finish ts =
      (itemsFrom finish 0 ts).map (Stylesheet.ofItems config.origin) := by
  rw [Stylesheet.ofTokens, readAll, hstrict, itemsFrom]
  rcases readFrom false finish 0 0 ts with e | items <;> rfl

theorem ofTokens_of_lawful {config : ParseConfig} (hstrict : config.lenient = false)
    (finish : Location) {c : Layout} (hc : c.Lawful false) :
    Stylesheet.ofTokens config finish c.tokens = .ok (c.sheet config.origin) := by
  have hitems : itemsFrom finish 0 (c.tokens ++ []) =
      (itemsFrom finish 0 (c.last ++ [])).map (c.items ++ ·) :=
    itemsFrom_tokens hc nofun fun _ => rfl
  rw [List.append_nil, List.append_nil, itemsFrom_blanks finish (last_allBlank hc)] at hitems
  rw [ofTokens_strict hstrict, hitems]
  simp only [Except.map, Stylesheet.ofItems, assemble_items]
  by_cases hlast : c.last = []
  · simp [hlast, Stylesheet.assemble, Stylesheet.closeAll, sheet, after, sourceText,
      Token.source]
  · simp [hlast, Stylesheet.assemble, Stylesheet.closeAll, sheet, after]

/-- A strict reader gives exactly the stylesheets of lawful layouts. -/
theorem ofTokens_eq_ok_iff {config : ParseConfig} (hstrict : config.lenient = false)
    (finish : Location) {ts : List Token} {s : Stylesheet} :
    Stylesheet.ofTokens config finish ts = .ok s ↔
      ∃ c : Layout, c.Lawful false ∧ c.tokens = ts ∧ c.sheet config.origin = s := by
  constructor
  · intro h
    rcases hitems : itemsFrom finish 0 ts with e | items
    · rw [ofTokens_strict hstrict, hitems] at h
      exact absurd h nofun
    obtain ⟨c, tail, hc, rfl, htail, -⟩ := exists_layout hitems
    obtain rfl : tail = [] := htail
    rw [List.append_nil, ofTokens_of_lawful hstrict finish hc, Except.ok.injEq] at h
    exact ⟨c, hc, (List.append_nil _).symm, h⟩
  · rintro ⟨c, hc, rfl, rfl⟩
    exact ofTokens_of_lawful hstrict finish hc

end Layout
end GradientFallback
