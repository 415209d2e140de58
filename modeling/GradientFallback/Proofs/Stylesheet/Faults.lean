import GradientFallback.CommandLine.Snippet
import GradientFallback.Proofs.Stylesheet.Recognition
import GradientFallback.Proofs.Stylesheet.Relocation
import GradientFallback.Proofs.Stylesheet.Watchful
import GradientFallback.Proofs.Text.Lines
import GradientFallback.Proofs.Token.Consuming

/-! # What strict reading complains about

Whatever a strict reader complains about is a token of the text, or its end.  Which tokens it can be
follows from how deep the token is nested, which is counted without a reader: braces open and close
blocks, unless they stand in parentheses.  Reading keeps count: between two items it is in as many
blocks as the tokens before say, and outside of all parentheses.
-/
namespace GradientFallback

theorem eq_error_of_map {ε α β : Type} {x : Except ε α} {f : α → β} {e : ε}
    (h : x.map f = .error e) : x = .error e := by
  cases x with
  | error e' => exact congrArg Except.error (Except.error.inj h)
  | ok a => exact absurd h nofun

/-- The parentheses and brackets that are open, and the blocks that are open around them. -/
structure Nesting where
  brackets : Nat
  blocks : Nat

namespace Nesting

def outside : Nesting := ⟨0, 0⟩

/-- The nesting behind a token.  In parentheses braces neither open nor close a block. -/
def pass (n : Nesting) (k : TokenKind) : Nesting :=
  if n.brackets = 0 ∧ k = .leftBrace then ⟨0, n.blocks + 1⟩
  else if n.brackets = 0 ∧ k = .rightBrace then ⟨0, n.blocks - 1⟩
  else ⟨Token.nest n.brackets k, n.blocks⟩

/-- The nesting behind the tokens. -/
def behind (n : Nesting) (ts : List Token) : Nesting := ts.foldl (fun n t => n.pass t.kind) n

@[simp] theorem behind_nil (n : Nesting) : n.behind [] = n := rfl

@[simp] theorem behind_cons (n : Nesting) (t : Token) (ts : List Token) :
    n.behind (t :: ts) = (n.pass t.kind).behind ts := rfl

@[simp] theorem behind_append (n : Nesting) (ts us : List Token) :
    n.behind (ts ++ us) = (n.behind ts).behind us := List.foldl_append

/-- Between braces only parentheses are counted. -/
theorem pass_of_not_endsHead {n : Nesting} {k : TokenKind}
    (h : n.brackets = 0 → Item.endsHead k = false) :
    n.pass k = ⟨Token.nest n.brackets k, n.blocks⟩ := by
  have hleft : ¬(n.brackets = 0 ∧ k = .leftBrace) := by
    rintro ⟨hn, rfl⟩
    exact Bool.false_ne_true (h hn).symm
  have hright : ¬(n.brackets = 0 ∧ k = .rightBrace) := by
    rintro ⟨hn, rfl⟩
    exact Bool.false_ne_true (h hn).symm
  rw [pass, if_neg hleft, if_neg hright]

theorem behind_passes {n : Nesting} {ts : List Token}
    (h : Token.Passes Item.endsHead n.brackets ts) :
    n.behind ts = ⟨Token.depthBehind n.brackets ts, n.blocks⟩ := by
  induction ts generalizing n with
  | nil => rfl
  | cons t ts ih => rw [behind_cons, pass_of_not_endsHead h.1, ih h.2, Token.depthBehind_cons]

theorem behind_trivia {ts : List Token} (h : Token.AllTrivia ts) (n : Nesting) :
    n.behind ts = n := by
  rw [behind_passes (Token.passes_trivia Item.isTrivia_endsHead h n.brackets),
    Token.depthBehind_trivia h]

end Nesting

/-- What a strict reader says of a token of the given kind, nested as `n`. -/
inductive Faulty (n : Nesting) : TokenKind → String → Prop
  | unclosedBlock (inside : 0 < n.blocks) : Faulty n .endOfText "Unclosed block"
  | unexpectedBrace (outside : n = .outside) : Faulty n .rightBrace "Unexpected \x7d"
  | declarationOutsideRule {k : TokenKind} (outside : n = .outside) (plain : k.startsPlain = true) :
      Faulty n k "Unexpected declaration outside of a rule"
  | missingProperty (inside : 0 < n.blocks) (direct : n.brackets = 0) :
      Faulty n .colon "Expected property name"
  | missingColon {found : DeclarationEnd} (inside : 0 < n.blocks)
      (direct : found ≠ .endOfText → n.brackets = 0) :
      Faulty n found.kind ("Expected Colon, got " ++ found.name)
  | missingValue {found : DeclarationEnd} (inside : 0 < n.blocks)
      (direct : found ≠ .endOfText → n.brackets = 0) :
      Faulty n found.kind "Expected value in declaration"

theorem Faulty.not_isWhitespace {n : Nesting} {k : TokenKind} {message : String}
    (h : Faulty n k message) : k.isWhitespace = false := by
  cases h with
  | declarationOutsideRule outside plain => cases k <;> first | rfl | exact absurd plain nofun
  | @missingColon found => cases found <;> rfl
  | @missingValue found => cases found <;> rfl
  | _ => rfl

/-- The error is about one of the tokens or their end, and about what stands there. -/
inductive Blames (n : Nesting) (finish : Location) : List Token → ParseError → Prop
  | intro (front back : List Token) {fault : ParseFault}
      (faulty : Faulty (n.behind front) (Token.headKind back) fault.message) :
      Blames n finish (front ++ back) ⟨fault, Token.start finish back⟩

theorem Blames.behind {n : Nesting} {finish : Location} {front ts : List Token} {e : ParseError}
    (h : Blames (n.behind front) finish ts e) : Blames n finish (front ++ ts) e := by
  obtain ⟨passed, back, faulty⟩ := h
  rw [← List.append_assoc]
  rw [← Nesting.behind_append] at faulty
  exact .intro _ back faulty

namespace Item

/-! ## Declarations -/

/-- How reading a declaration ends, with the tokens `run` in front of what stops its value. -/
inductive DeclarationRead (finish : Location) (run rest : List Token) :
    Except ParseError (Item × Nat) → Prop
  | missingColon : DeclarationRead finish run rest
      (.error ⟨.missingColon (declarationEnd rest), Token.start finish rest⟩)
  | missingProperty {t : Token} (first : (run ++ rest).head? = some t) (colon : t.kind = .colon) :
      DeclarationRead finish run rest (.error ⟨.missingProperty, t.location⟩)
  | missingValue : DeclarationRead finish run rest
      (.error ⟨.missingValue, Token.start finish rest⟩)
  | ended {n : Node} (semicolon : Token.headKind rest = .semicolon) :
      DeclarationRead finish run rest (.ok (.leaf n, run.length + 1))
  /-- Trivia in front of a closing brace or of the end is left to the block. -/
  | unended {n : Node} {written after : List Token} (ne_nil : written ≠ [])
      (parts : run = written ++ after) (trivia : Token.AllTrivia after)
      (stops : Token.headKind rest ≠ .semicolon) :
      DeclarationRead finish run rest (.ok (.leaf n, written.length))

/-- Where no value has been read, reading stopped at the first semicolon or closing brace. -/
theorem declarationRead_behind {property before between : String} {location finish : Location}
    {front ts : List Token} {sign : List Char} {place : Location}
    (hfront : Token.Passes endsProperty 0 front) (hclosed : Token.depthBehind 0 front = 0) :
    ∃ run rest, front ++ ⟨.colon, place, sign⟩ :: ts = run ++ rest ∧
      Token.Passes endsValue 0 run ∧
      (∀ t ∈ rest.head?, Token.depthBehind 0 run = 0 ∧ endsValue t.kind = true) ∧
      DeclarationRead finish run rest
        ((declarationValue property before between location finish ts).map
          fun r => (r.1, front.length + 1 + r.2)) := by
  obtain ⟨gap, value, after, rest, rfl, hgap, hfirst, hlast, hafter, hnil, hpasses, hends⟩ :=
    exists_value ts
  let written := front ++ ⟨.colon, place, sign⟩ :: gap ++ value
  have hbehind : Token.depthBehind 0 (front ++ ⟨.colon, place, sign⟩ :: gap) = 0 := by
    rw [Token.depthBehind_append, hclosed, Token.depthBehind_cons]
    exact Token.depthBehind_trivia hgap _
  have hrun : written ++ after = front ++ ⟨.colon, place, sign⟩ :: gap ++ (value ++ after) := by
    simp [written]
  refine ⟨written ++ after, rest, by simp [written], ?_, fun u hu => ?_, ?_⟩
  · rw [hrun, Token.passes_append, hbehind, Token.passes_append, hclosed, Token.passes_cons]
    exact ⟨⟨hfront.mono endsValue_of_endsProperty, fun _ => rfl,
      Token.passes_trivia isTrivia_endsValue hgap _⟩, hpasses⟩
  · rw [hrun, Token.depthBehind_append, hbehind]
    exact hends u hu
  · rw [declarationValue_of_parts property before between location finish hgap hfirst hlast hafter
      hnil hpasses hends]
    split
    · exact .missingValue
    · by_cases hs : Token.headKind rest = .semicolon
      · have hwidth : front.length + 1 + (gap.length + ((value ++ after).length + 1)) =
            (written ++ after).length + 1 := by
          simp only [written, List.length_append, List.length_cons]
          omega
        simp only [hs, if_true, Except.map, hwidth]
        exact .ended hs
      · have hwidth : front.length + 1 + (gap.length + value.length) = written.length := by
          simp only [written, List.length_append, List.length_cons]
          omega
        simp only [hs, if_false, Except.map, hwidth]
        exact .unended (by simp [written]) rfl hafter hs

/-- A declaration is read up to what stops its value, also if it has none. -/
theorem declarationRead (before : String) (finish : Location) {t : Token} (ts : List Token)
    (ht : t.isTrivia = false) :
    ∃ run rest, t :: ts = run ++ rest ∧ Token.Passes endsValue 0 run ∧
      (∀ u ∈ rest.head?, Token.depthBehind 0 run = 0 ∧ endsValue u.kind = true) ∧
      DeclarationRead finish run rest (declaration before t.location finish (t :: ts)) := by
  obtain ⟨front, rest, hts, hfront, hstops⟩ := Token.exists_cut endsProperty 0 (t :: ts)
  rw [declaration, hts, Token.spanUntil_of_passes hfront hstops]
  dsimp only
  split
  · next place sign more =>
    split
    · next hwritten =>
      -- The first token is no trivia, so it is the colon itself.
      obtain rfl : front = [] := by
        cases front with
        | nil => rfl
        | cons u front =>
          obtain rfl : t = u := (List.cons.inj hts).1
          have hmem : t ∈ significant (t :: front) := mem_dropTrailing ht List.mem_cons_self
          rw [hwritten] at hmem
          exact absurd hmem List.not_mem_nil
      obtain ⟨rfl, -⟩ := List.cons.inj hts
      obtain ⟨run, rest, hcut, hrun, hends⟩ := Token.exists_cut endsValue 0 ([] ++ _ :: more)
      exact ⟨run, rest, hcut, hrun, hends, .missingProperty (by rw [← hcut]; rfl) rfl⟩
    · exact declarationRead_behind hfront (hstops _ rfl).1
  · next hcolon =>
    have hnone : Token.headKind rest ≠ .colon := by
      intro hkind
      cases rest with
      | nil => cases hkind
      | cons u more =>
        rcases u with ⟨kind, place, sign⟩
        obtain rfl : kind = .colon := hkind
        exact hcolon place sign more rfl
    have hends := Watchful.endsValue_of_no_colon (fun u hu => (hstops u hu).2) hnone
    exact ⟨front, rest, rfl, hfront.mono endsValue_of_endsProperty,
      fun u hu => ⟨(hstops u hu).1, hends u hu⟩, .missingColon⟩

/-! ## One item -/

/-- Between two items, with `d` blocks open, parentheses are open only behind the last one. -/
def Settled (n : Nesting) (d : Nat) (ts : List Token) : Prop :=
  n = ⟨0, d⟩ ∨ n.blocks = d ∧ Token.AllTrivia ts

/-- What reading one item comes to, with `d` blocks open. -/
inductive Outcome (finish : Location) (n : Nesting) (d : Nat) :
    List Token → Except ParseError (Item × Nat) → Prop
  | taken {front more : List Token} {item : Item} (ne_nil : front ≠ [])
      (settled : Settled (n.behind front) (item.depth d) more) :
      Outcome finish n d (front ++ more) (.ok (item, front.length))
  | blamed {ts : List Token} {e : ParseError} (blames : Blames n finish ts e) :
      Outcome finish n d ts (.error e)

theorem Outcome.of_append {finish : Location} {n : Nesting} {d width : Nat} {ts : List Token}
    {item : Item} (front more : List Token) (hts : ts = front ++ more)
    (hwidth : width = front.length) (hne : front ≠ [])
    (hsettled : Settled (n.behind front) (item.depth d) more) :
    Outcome finish n d ts (.ok (item, width)) := by
  subst hts hwidth
  exact .taken hne hsettled

theorem Outcome.behind {finish : Location} {n : Nesting} {d : Nat} {front ts : List Token}
    {r : Except ParseError (Item × Nat)} (h : Outcome finish (n.behind front) d ts r) :
    Outcome finish n d (front ++ ts) (r.map fun r => (r.1, front.length + r.2)) := by
  cases h with
  | @taken passed more item ne_nil settled =>
    rw [← List.append_assoc]
    rw [← Nesting.behind_append] at settled
    have hwidth : front.length + passed.length = (front ++ passed).length :=
      List.length_append.symm
    simp only [Except.map, hwidth]
    exact .taken (by simp [ne_nil]) settled
  | blamed blames => exact .blamed blames.behind

variable {finish : Location} {before : String} {d : Nat} {t : Token} {ts : List Token}

theorem behind_closed {run : List Token} (passes : Token.Passes endsHead 0 run)
    (closed : Token.depthBehind 0 run = 0) : Nesting.behind ⟨0, d⟩ run = ⟨0, d⟩ := by
  rw [Nesting.behind_passes passes, closed]

theorem pass_leftBrace (h : t.kind = .leftBrace) : Nesting.pass ⟨0, d⟩ t.kind = ⟨0, d + 1⟩ := by
  rw [h]
  rfl

theorem pass_of_isSign (h : t.kind.isSign = true) : Nesting.pass ⟨0, d⟩ t.kind = ⟨0, d⟩ := by
  rcases t with ⟨kind, location, text⟩
  cases kind <;> first | rfl | exact absurd h nofun

/-- An at-rule ends with the brace that opens its block, with a semicolon, or in front of the end of
the block around it. -/
theorem outcome_atRule {name : String} (kind : t.kind = .atKeyword name) :
    Outcome finish ⟨0, d⟩ d (t :: ts) (.ok ((atRule before name t.location ts).1,
      (atRule before name t.location ts).2 + 1)) := by
  obtain ⟨run, rest, rfl, hrun, hstops⟩ := Token.exists_cut endsHead 0 ts
  have hpasses : Token.Passes endsHead 0 (t :: run) := by
    rw [Token.passes_cons, kind]
    exact ⟨fun _ => rfl, hrun⟩
  have hdepth := Token.depthBehind_atKeyword kind run
  rw [atRule_of_passes hrun hstops]
  cases rest with
  | nil =>
    have hblocks : (Nesting.behind ⟨0, d⟩ (t :: run)).blocks = d := by
      rw [Nesting.behind_passes hpasses]
    exact .of_append (t :: run) [] (by simp) rfl (List.cons_ne_nil t run)
      (.inr ⟨hblocks, Token.allTrivia_nil⟩)
  | cons u rest =>
    have hclosed : Nesting.behind ⟨0, d⟩ (t :: run) = ⟨0, d⟩ :=
      behind_closed hpasses (hdepth.trans (hstops u rfl).1)
    have hbehind : Nesting.behind ⟨0, d⟩ (t :: run ++ [u]) = Nesting.pass ⟨0, d⟩ u.kind := by
      rw [Nesting.behind_append, hclosed]
      rfl
    rcases endsHead_cases (hstops u rfl).2 with hu | hu | hu
    · simp only [Token.headKind, hu]
      exact .of_append (t :: run ++ [u]) rest (by simp) (by simp) (List.concat_ne_nil u (t :: run))
        (.inl (hbehind.trans (pass_leftBrace hu)))
    · simp only [Token.headKind, hu]
      exact .of_append (t :: run ++ [u]) rest (by simp) (by simp) (List.concat_ne_nil u (t :: run))
        (.inl (hbehind.trans (pass_of_isSign (by rw [hu]; rfl))))
    · simp only [Token.headKind, hu]
      exact .of_append (t :: run) (u :: rest) (by simp) rfl (List.cons_ne_nil t run) (.inl hclosed)

theorem outcome_rule {run : List Token} {u : Token} {rest : List Token}
    (passes : Token.Passes endsHead 0 run) (closed : Token.depthBehind 0 run = 0)
    (brace : u.kind = .leftBrace) :
    Outcome finish ⟨0, d⟩ d (run ++ u :: rest) (.ok (rule before t.location run)) := by
  refine .of_append (run ++ [u]) rest (by simp) (by simp) (List.concat_ne_nil u run) (.inl ?_)
  rw [Nesting.behind_append, behind_closed passes closed]
  exact pass_leftBrace brace

/-- Inside of a block a declaration is read, or blamed for what stands where it misses something. -/
theorem outcome_declaration (hd : d ≠ 0) (ht : t.isTrivia = false)
    (hbrace : Token.headKind (Token.spanUntil endsHead 0 (t :: ts)).2 ≠ .leftBrace) :
    Outcome finish ⟨0, d⟩ d (t :: ts) (declaration before t.location finish (t :: ts)) := by
  obtain ⟨run, rest, hts, hrun, hstops, hread⟩ := declarationRead before finish ts ht
  rw [hts] at hbrace
  have hbehind := Nesting.behind_passes (n := ⟨0, d⟩) (passes_endsHead hrun hbrace)
  have hinside : 0 < d := Nat.pos_of_ne_zero hd
  have hkind := Watchful.kind_declarationEnd fun u hu => (hstops u hu).2
  have hdirect (h : declarationEnd rest ≠ .endOfText) : Token.depthBehind 0 run = 0 := by
    cases rest with
    | nil => exact absurd rfl h
    | cons u rest => exact (hstops u rfl).1
  generalize declaration before t.location finish (t :: ts) = r at hread ⊢
  rw [hts]
  cases hread with
  | missingColon =>
    refine .blamed (.intro run rest ?_)
    rw [hbehind, ← hkind]
    exact .missingColon hinside hdirect
  | @missingProperty u first colon =>
    obtain ⟨more, hmore⟩ := List.head?_eq_some_iff.1 first
    rw [hmore]
    have hfaulty : Faulty (Nesting.behind ⟨0, d⟩ []) u.kind ParseFault.missingProperty.message := by
      rw [colon]
      exact .missingProperty hinside rfl
    exact .blamed (.intro [] (u :: more) hfaulty)
  | missingValue =>
    refine .blamed (.intro run rest ?_)
    rw [hbehind, ← hkind]
    exact .missingValue hinside hdirect
  | ended semicolon =>
    cases rest with
    | nil => exact absurd semicolon nofun
    | cons u rest =>
      refine .of_append (run ++ [u]) rest (by simp) (by simp) (List.concat_ne_nil u run) (.inl ?_)
      rw [Nesting.behind_append, hbehind, (hstops u rfl).1]
      have hu : u.kind = .semicolon := semicolon
      exact pass_of_isSign (by rw [hu]; rfl)
  | @unended n written after ne_nil parts trivia stops =>
    subst parts
    rw [Nesting.behind_append, Nesting.behind_trivia trivia] at hbehind
    refine .of_append written (after ++ rest) (by simp) rfl ne_nil ?_
    rw [hbehind]
    cases rest with
    | nil => exact .inr ⟨rfl, by rwa [List.append_nil]⟩
    | cons u rest =>
      rw [(hstops u rfl).1]
      exact .inl rfl

/-- A single token that changes no nesting is an item of its own. -/
theorem outcome_single {n : Nesting} {item : Item} (hitem : item.depth d = d)
    (hpass : n.pass t.kind = n) (hn : Settled n d (t :: ts)) :
    Outcome finish n d (t :: ts) (.ok (item, 1)) := by
  refine .of_append [t] ts rfl rfl (List.cons_ne_nil t []) ?_
  rw [hitem, Nesting.behind_cons, hpass]
  exact hn.imp_right fun h => ⟨h.1, fun u hu => h.2 u (List.mem_cons_of_mem t hu)⟩

theorem outcome_readAt (hblank : t.isWhitespace = false) :
    Outcome finish ⟨0, d⟩ d (t :: ts) (readAt (d != 0) finish before t ts) := by
  have hattempt := attempt_readAt (d != 0) finish before t ts
  have hn : Settled ⟨0, d⟩ d (t :: ts) := .inl rfl
  generalize readAt (d != 0) finish before t ts = r at hattempt ⊢
  cases hattempt with
  | closing kind inside =>
    refine .of_append [t] ts rfl rfl (List.cons_ne_nil t []) (.inl ?_)
    rw [Nesting.behind_cons, kind]
    rfl
  | unexpected kind outside =>
    obtain rfl : d = 0 := by simpa using outside
    have hfaulty : Faulty (Nesting.behind ⟨0, 0⟩ []) (Token.headKind (t :: ts))
        ParseFault.unexpectedBrace.message := by
      rw [Token.headKind, kind]
      exact .unexpectedBrace rfl
    exact .blamed (.intro [] (t :: ts) hfaulty)
  | stray kind => exact outcome_single rfl (pass_of_isSign kind) hn
  | comment kind => exact outcome_single rfl (by rw [kind]; rfl) hn
  | atRule kind => exact outcome_atRule kind
  | rule plain brace =>
    obtain ⟨run, rest, hts, hrun, hstops⟩ := Token.exists_cut endsHead 0 (t :: ts)
    rw [hts, Token.spanUntil_of_passes hrun hstops] at brace ⊢
    cases rest with
    | nil => cases brace
    | cons u rest => exact outcome_rule hrun (hstops u rfl).1 brace
  | declaration plain brace inside =>
    exact outcome_declaration (by simpa using inside) (startsPlain_stays (plain hblank)).1 brace
  | misplaced plain brace outside =>
    obtain rfl : d = 0 := by simpa using outside
    exact .blamed (.intro [] (t :: ts) (.declarationOutsideRule rfl (plain hblank)))

/-- Where only trivia is left, a comment is read. -/
theorem outcome_comment {n : Nesting} (hblank : t.isWhitespace = false) (htrivia : t.isTrivia = true)
    (hn : Settled n d (t :: ts)) :
    Outcome finish n d (t :: ts) (readAt (d != 0) finish before t ts) := by
  have hpass : n.pass t.kind = n := by
    have hall : Token.AllTrivia [t] := fun u hu => by rw [List.mem_singleton.1 hu]; exact htrivia
    exact Nesting.behind_trivia hall n
  obtain ⟨content, hk⟩ := Token.comment_of_isTrivia hblank htrivia
  simp only [readAt, hk]
  exact outcome_single rfl hpass hn

theorem outcome_read {n : Nesting} (hne : ts ≠ []) (hn : Settled n d ts) :
    Outcome finish n d ts (read false (d != 0) finish ts) := by
  rcases Token.all_or_first Token.isWhitespace ts with hblank | ⟨ws, t, more, hblank, hfirst, rfl⟩
  · have hpass := Nesting.behind_trivia (Token.AllBlank.allTrivia hblank) n
    rw [read_blanks hblank]
    refine .of_append ts [] (List.append_nil ts).symm rfl hne ?_
    rw [hpass]
    exact hn.imp_right fun h => ⟨h.1, Token.allTrivia_nil⟩
  · have hpass := Nesting.behind_trivia (Token.AllBlank.allTrivia hblank) n
    rw [read_of_blanks hblank hfirst]
    refine .behind ?_
    rw [hpass]
    rcases hn with rfl | ⟨hblocks, htrivia⟩
    · exact outcome_readAt hfirst
    · have hmore : Token.AllTrivia (t :: more) := fun u hu => htrivia u (List.mem_append_right _ hu)
      exact outcome_comment hfirst (hmore t List.mem_cons_self) (.inr ⟨hblocks, hmore⟩)

/-! ## Whole texts -/

/-- Whatever ends strict reading, it is blamed on a token with the nesting that this fault needs. -/
theorem blames_itemsFrom {n : Nesting} {e : ParseError} (hn : Settled n d ts)
    (h : itemsFrom finish d ts = .error e) : Blames n finish ts e := by
  -- Each item leaves the reader settled, so that the nesting is known where reading goes on.
  induction hl : ts.length using Nat.strongRecOn generalizing n d ts with
  | ind l ih =>
    by_cases hts : ts = []
    · subst hts
      rw [itemsFrom_nil] at h
      split at h
      · cases h
      · next hd =>
        have hblocks : n.blocks = d := by
          rcases hn with rfl | ⟨hblocks, -⟩
          · rfl
          · exact hblocks
        cases h
        exact .intro [] [] (.unclosedBlock (hblocks ▸ Nat.pos_of_ne_zero hd))
    · have houtcome : Outcome finish n d ts (read false (d != 0) finish ts) := outcome_read hts hn
      rcases hread : read false (d != 0) finish ts with e' | ⟨item, width⟩
      · rw [hread] at houtcome
        rw [itemsFrom_of_error hts hread] at h
        cases h
        cases houtcome with
        | blamed blames => exact blames
      · rw [hread] at houtcome
        cases houtcome with
        | @taken front more _ ne_nil settled =>
          rw [itemsFrom_of_read more hread ne_nil] at h
          have hpos := List.length_pos_iff.2 ne_nil
          have hshort : more.length < l := by
            rw [← hl, List.length_append]
            omega
          exact (ih more.length hshort settled (eq_error_of_map h) rfl).behind

end Item

theorem Location.counted_origin : origin.Counted := ⟨Nat.le_refl 1, Nat.le_refl 1⟩

namespace Stylesheet

theorem blames_parse {text : String} {e : ParseError} (h : parse .strict text = .error e) :
    Blames .outside (Location.origin.advance (unifyLineEnds text.toList))
      (Token.lex .origin (unifyLineEnds text.toList)) e := by
  have hstrict : ParseConfig.strict.lenient = false := rfl
  rw [parse, ofChars, Layout.ofTokens_strict hstrict] at h
  exact Item.blames_itemsFrom (.inl rfl) (eq_error_of_map h)

/-- A strict error is about a token of the text, or about its end, and stands at its place. -/
theorem exists_blamed {text : String} {e : ParseError} (h : parse .strict text = .error e) :
    ∃ front t back, Token.all .origin (unifyLineEnds text.toList) = front ++ t :: back ∧
      t.location = e.location ∧
      Faulty (Nesting.outside.behind front) t.kind e.fault.message ∧
      e.location = Location.origin.advance (Token.source front) := by
  have hblames := blames_parse h
  have hplaces := Token.all_eq_settleAll .origin (unifyLineEnds text.toList)
  rw [Token.all] at hplaces ⊢
  generalize Location.origin.advance (unifyLineEnds text.toList) = finish at hblames hplaces ⊢
  generalize Token.lex .origin (unifyLineEnds text.toList) = ts at hblames hplaces ⊢
  obtain ⟨front, back, faulty⟩ := hblames
  obtain ⟨t, us, hback⟩ := List.exists_cons_of_ne_nil (List.concat_ne_nil (Token.atEnd finish) back)
  have hplace : t.location = Token.start finish back := by
    cases back <;> (cases hback; rfl)
  have hkind : t.kind = Token.headKind back := by
    cases back <;> (cases hback; rfl)
  rw [List.append_assoc, hback] at hplaces ⊢
  have hat : (Token.settleAll .origin (front ++ back))[front.length]? = some t := by
    rw [← hplaces]
    simp
  have hlocation := Token.location_settleAll .origin hat
  rw [List.take_left] at hlocation
  exact ⟨front, t, us, rfl, hplace, by rwa [hkind], hplace.symm.trans hlocation⟩

end Stylesheet

/-- The tokens with the one for the end make up the text. -/
theorem Token.source_all (start : Location) (cs : List Char) : source (all start cs) = cs := by
  rw [all, source_append, source_lex]
  exact List.append_nil cs

namespace Watchful

/-- A strict reader that looks again at every token it needs finds nothing to complain about that the
plain reader does not: no rule misses its brace and no at-rule its keyword.  What both complain about
is a token of the text or its end, in one of its lines, and the message is one of those that fit the
token and its nesting. -/
theorem strict_complaint (text : String) :
    parse .strict text = (Stylesheet.parse .strict text).mapError Alarm.ofError ∧
      (∀ alarm, parse .strict text = .error alarm → ∀ found,
        alarm.complaint ≠ .unexpected .leftBrace found ∧
          alarm.complaint ≠ .unexpected .atKeyword found) ∧
      ∀ e, Stylesheet.parse .strict text = .error e →
        ∃ front t back, Token.all .origin (unifyLineEnds text.toList) = front ++ t :: back ∧
          t.location = e.location ∧ Faulty (Nesting.outside.behind front) t.kind e.fault.message ∧
          1 ≤ e.location.line ∧ e.location.line ≤ (CommandLine.linesOf text).length := by
  have hsame := parse_eq .strict text
  refine ⟨hsame, fun alarm halarm found => ?_, fun e he => ?_⟩
  · rw [halarm] at hsame
    rcases hparse : Stylesheet.parse .strict text with e | s
    · rw [hparse] at hsame
      obtain rfl : alarm = .ofError e := Except.error.inj hsame
      rcases e with ⟨fault, place⟩
      cases fault <;> exact ⟨nofun, nofun⟩
    · rw [hparse] at hsame
      exact absurd hsame nofun
  · obtain ⟨front, t, back, hall, hplace, hfaulty, hlocation⟩ := Stylesheet.exists_blamed he
    have hsource := congrArg Token.source hall
    rw [Token.source_all, Token.source_append] at hsource
    have hcounted := Location.counted_origin.advance (Token.source front)
    rw [CommandLine.linesOf, List.length_map, hlocation]
    exact ⟨front, t, back, hall, hplace.trans hlocation, hfaulty, hcounted.line,
      advance_line_le hsource⟩

/-- A colon in parentheses is not the one that a declaration needs. -/
theorem strict_complaint_parenthesis :
    ∃ e, Stylesheet.parse .strict "a\x7bb\n(:\x7d" = .error e ∧
      e.fault.message = "Expected Colon, got Eof" ∧ e.location = ⟨2, 4, 7⟩ ∧
      ∃ front t back,
        Token.all .origin (unifyLineEnds "a\x7bb\n(:\x7d".toList) = front ++ t :: back ∧
          t.location = e.location ∧ Faulty (Nesting.outside.behind front) t.kind e.fault.message ∧
          1 ≤ e.location.line ∧
            e.location.line ≤ (CommandLine.linesOf "a\x7bb\n(:\x7d").length := by
  have hfails : Stylesheet.parse .strict "a\x7bb\n(:\x7d" =
      .error ⟨.missingColon .endOfText, ⟨2, 4, 7⟩⟩ := rfl
  exact ⟨_, hfails, rfl, rfl, (strict_complaint _).2.2 _ hfails⟩

end Watchful
end GradientFallback
