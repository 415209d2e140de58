import GradientFallback.Proofs.Stylesheet.Layout
import GradientFallback.Proofs.Text.Trimming
import GradientFallback.Stylesheet.Parser

/-! # Strict reading is reading a layout

A strict reader gives a stylesheet exactly for the token lists that have a lawful layout, and the
stylesheet is the one that the layout makes.
-/
namespace GradientFallback

theorem exists_of_map_eq_ok {ε α β : Type} {x : Except ε α} {f : α → β} {b : β}
    (h : x.map f = .ok b) : ∃ a, x = .ok a ∧ f a = b := by
  cases x with
  | error e => exact absurd h nofun
  | ok a => exact ⟨a, rfl, Except.ok.inj h⟩

theorem takeWhile_append_of_all {α : Type} {p : α → Bool} {xs ys : List α}
    (hxs : ∀ x ∈ xs, p x = true) (hys : ∀ y ∈ ys.head?, p y = false) :
    (xs ++ ys).takeWhile p = xs := by
  rw [List.takeWhile_append_of_pos hxs]
  cases ys with
  | nil => simp
  | cons y ys =>
    have hy : p y = false := hys y rfl
    simp [hy]

namespace Item

theorem startsPlain_not_isWhitespace {t : Token} (h : t.kind.startsPlain = true) :
    t.isWhitespace = false := by
  unfold Token.isWhitespace TokenKind.isWhitespace
  split
  · next hk => rw [hk] at h; exact h.symm
  · rfl

theorem takeWhile_blanks {ws more : List Token} {t : Token} (hws : Token.AllBlank ws)
    (ht : t.isWhitespace = false) : (ws ++ t :: more).takeWhile Token.isWhitespace = ws :=
  takeWhile_append_of_all hws fun u hu => by cases hu; exact ht

/-- Reading passes the blanks in front of an item. -/
theorem read_of_blanks {nested : Bool} {finish : Location} {ws more : List Token} {t : Token}
    (hws : Token.AllBlank ws) (ht : t.isWhitespace = false) :
    read false nested finish (ws ++ t :: more) =
      (readAt nested finish (sourceText ws) t more).map fun r => (r.1, ws.length + r.2) := by
  rw [read, takeWhile_blanks hws ht, List.drop_left]
  dsimp only
  rcases readAt nested finish (sourceText ws) t more with e | ⟨item, width⟩ <;> rfl

theorem read_of_readAt {lenient nested : Bool} {finish : Location} {ws more : List Token}
    {t : Token} {item : Item} {width : Nat} (hws : Token.AllBlank ws) (ht : t.isWhitespace = false)
    (h : readAt nested finish (sourceText ws) t more = .ok (item, width)) :
    read lenient nested finish (ws ++ t :: more) = .ok (item, ws.length + width) := by
  rw [read, takeWhile_blanks hws ht, List.drop_left]
  dsimp only
  rw [h]

/-- A lenient reader passes what is broken. -/
theorem read_of_error {nested : Bool} {finish : Location} {ws more : List Token} {t : Token}
    {e : ParseError} (hws : Token.AllBlank ws) (ht : t.isWhitespace = false)
    (h : readAt nested finish (sourceText ws) t more = .error e) :
    read true nested finish (ws ++ t :: more) =
      .ok (.stray, ws.length + brokenWidth (t :: more)) := by
  rw [read, takeWhile_blanks hws ht, List.drop_left]
  dsimp only
  rw [h]
  rfl

theorem read_blanks {lenient nested : Bool} {finish : Location} {ws : List Token}
    (hws : Token.AllBlank ws) :
    read lenient nested finish ws = .ok (.ending (sourceText ws), ws.length) := by
  have hblanks : (ws ++ []).takeWhile Token.isWhitespace = ws :=
    takeWhile_append_of_all hws fun _ hu => absurd hu nofun
  rw [List.append_nil] at hblanks
  rw [read, hblanks, List.drop_length]

theorem readAt_plain {nested : Bool} {finish : Location} {before : String} {t : Token}
    {ts : List Token} (h : t.kind.startsPlain = true) :
    readAt nested finish before t ts =
      if Token.headKind (Token.spanUntil endsHead 0 (t :: ts)).2 = .leftBrace then
        .ok (rule before t.location (Token.spanUntil endsHead 0 (t :: ts)).1)
      else if nested then declaration before t.location finish (t :: ts)
      else .error ⟨.declarationOutsideRule, t.location⟩ := by
  unfold readAt
  split <;> simp_all [TokenKind.startsPlain]

/-- What is read at a token, with what decides about it. -/
inductive Attempt (nested : Bool) (finish : Location) (before : String) (t : Token)
    (ts : List Token) : Except ParseError (Item × Nat) → Prop
  | closing (kind : t.kind = .rightBrace) (inside : nested = true) :
      Attempt nested finish before t ts (.ok (.closing before, 1))
  | unexpected (kind : t.kind = .rightBrace) (outside : nested = false) :
      Attempt nested finish before t ts (.error ⟨.unexpectedBrace, t.location⟩)
  | stray (kind : t.kind.isSign = true) : Attempt nested finish before t ts (.ok (.stray, 1))
  | comment {content : String} (kind : t.kind = .comment content) :
      Attempt nested finish before t ts (.ok (.leaf (.comment ⟨content, t.location, before⟩), 1))
  | atRule {name : String} (kind : t.kind = .atKeyword name) :
      Attempt nested finish before t ts
        (.ok ((atRule before name t.location ts).1, (atRule before name t.location ts).2 + 1))
  | rule (plain : t.isWhitespace = false → t.kind.startsPlain = true)
      (brace : Token.headKind (Token.spanUntil endsHead 0 (t :: ts)).2 = .leftBrace) :
      Attempt nested finish before t ts
        (.ok (rule before t.location (Token.spanUntil endsHead 0 (t :: ts)).1))
  | declaration (plain : t.isWhitespace = false → t.kind.startsPlain = true)
      (brace : Token.headKind (Token.spanUntil endsHead 0 (t :: ts)).2 ≠ .leftBrace)
      (inside : nested = true) :
      Attempt nested finish before t ts (declaration before t.location finish (t :: ts))
  | misplaced (plain : t.isWhitespace = false → t.kind.startsPlain = true)
      (brace : Token.headKind (Token.spanUntil endsHead 0 (t :: ts)).2 ≠ .leftBrace)
      (outside : nested = false) :
      Attempt nested finish before t ts (.error ⟨.declarationOutsideRule, t.location⟩)

theorem attempt_readAt (nested : Bool) (finish : Location) (before : String) (t : Token)
    (ts : List Token) : Attempt nested finish before t ts (readAt nested finish before t ts) := by
  unfold readAt
  split
  · next hk =>
    split
    · next hnested => exact .closing hk hnested
    · next houtside => exact .unexpected hk (Bool.eq_false_iff.2 houtside)
  · next hk => exact .stray (by rw [hk]; rfl)
  · next hk => exact .stray (by rw [hk]; rfl)
  · next hk => exact .stray (by rw [hk]; rfl)
  · next hk => exact .comment hk
  · next hk => exact .atRule hk
  · have hplain : t.isWhitespace = false → t.kind.startsPlain = true := by
      intro hblank
      rcases t with ⟨kind, location, text⟩
      cases kind <;> simp_all [TokenKind.startsPlain, Token.isWhitespace, TokenKind.isWhitespace]
    dsimp only
    split
    · next hbrace => exact .rule hplain hbrace
    · next hbrace =>
      split
      · next hnested => exact .declaration hplain hbrace hnested
      · next houtside => exact .misplaced hplain hbrace (Bool.eq_false_iff.2 houtside)

/-! ## Constructs -/

theorem endsHead_of_endsValue (k : TokenKind) (h : endsValue k = true) : endsHead k = true := by
  cases k <;> simp_all [endsValue, endsHead]

theorem isTrivia_of_endsHead {t : Token} (h : endsHead t.kind = true) : t.isTrivia = false := by
  unfold Token.isTrivia TokenKind.isTrivia
  split <;> simp_all [endsHead]

theorem isTrivia_endsHead (k : TokenKind) (h : k.isTrivia = true) : endsHead k = false := by
  cases k <;> simp_all [TokenKind.isTrivia, endsHead]

theorem isTrivia_endsProperty (k : TokenKind) (h : k.isTrivia = true) : endsProperty k = false := by
  cases k <;> simp_all [TokenKind.isTrivia, endsProperty]

theorem isTrivia_endsValue (k : TokenKind) (h : k.isTrivia = true) : endsValue k = false := by
  cases k <;> simp_all [TokenKind.isTrivia, endsValue]

theorem significant_append {ts us : List Token} (hts : ∀ t ∈ ts.getLast?, t.isTrivia = false)
    (hus : Token.AllTrivia us) : significant (ts ++ us) = ts := dropTrailing_append hts hus

theorem atRule_of_passes {before name : String} {location : Location} {run rest : List Token}
    (hrun : Token.Passes endsHead 0 run)
    (hrest : ∀ t ∈ rest.head?, Token.depthBehind 0 run = 0 ∧ endsHead t.kind = true) :
    atRule before name location (run ++ rest) =
      match Token.headKind rest with
      | .leftBrace => (.opening (.atRule (.ofRun before name location run)), run.length + 1)
      | .semicolon => (.leaf (.statement (.ofRun before name location run) true), run.length + 1)
      | _ => (.leaf (.statement (.ofRun before name location run) false), run.length) := by
  rw [atRule, Token.spanUntil_of_passes hrun hrest]
  rfl

theorem declarationValue_of_parts (property before between : String) (location finish : Location)
    {gap value after rest : List Token} (hgap : Token.AllTrivia gap)
    (hfirst : ∀ t ∈ value.head?, t.isTrivia = false)
    (hlast : ∀ t ∈ value.getLast?, t.isTrivia = false) (hafter : Token.AllTrivia after)
    (hnil : value = [] → after = []) (hpasses : Token.Passes endsValue 0 (value ++ after))
    (hrest : ∀ t ∈ rest.head?,
      Token.depthBehind 0 (value ++ after) = 0 ∧ endsValue t.kind = true) :
    declarationValue property before between location finish (gap ++ (value ++ after ++ rest)) =
      if (splitMarker (Token.source value)).1 = [] ∧ property.toList.take 2 ≠ ['-', '-'] then
        .error ⟨.missingValue, Token.start finish rest⟩
      else
        .ok (.leaf (.declaration ⟨property, String.ofList (splitMarker (Token.source value)).1,
          (splitMarker (Token.source value)).2.isSome, location, before, between ++ sourceText gap,
          (splitMarker (Token.source value)).2.map String.ofList,
          sourceText (if Token.headKind rest = .semicolon then after else []),
          Token.headKind rest = .semicolon⟩),
          gap.length + if Token.headKind rest = .semicolon then (value ++ after).length + 1
            else value.length) := by
  have hgapRun : (gap ++ (value ++ after ++ rest)).takeWhile Token.isTrivia = gap := by
    apply takeWhile_append_of_all hgap
    cases value with
    | nil =>
      rw [hnil rfl]
      exact fun t ht => isTrivia_of_endsHead (endsHead_of_endsValue _ (hrest t ht).2)
    | cons u value => exact fun t ht => hfirst t ht
  rw [declarationValue, hgapRun, List.drop_left, Token.spanUntil_of_passes hpasses hrest]
  dsimp only
  rw [significant_append hlast hafter, List.drop_left]

theorem lawful_name_closed {p : DeclarationParts} (hp : p.Lawful) :
    Token.depthBehind 0 (p.name ++ p.nameGap) = 0 := by
  rw [Token.depthBehind_append, hp.name_closed, Token.depthBehind_trivia hp.nameGap]

/-- In front of its value a declaration leaves no parenthesis open. -/
theorem depthBehind_parts {p : DeclarationParts}
    (hname : Token.depthBehind 0 (p.name ++ p.nameGap) = 0) (colon : p.colon.kind = .colon)
    (gap : Token.AllTrivia p.gap) :
    Token.depthBehind 0 (p.name ++ p.nameGap ++ p.colon :: p.gap) = 0 := by
  rw [Token.depthBehind_append, hname, Token.depthBehind_cons, colon]
  exact Token.depthBehind_trivia gap _

theorem lawful_value_passes {p : DeclarationParts} (hp : p.Lawful) :
    Token.Passes endsHead 0 p.value ∧ Token.depthBehind 0 p.value = 0 := by
  have hfront := depthBehind_parts (lawful_name_closed hp) hp.colon hp.gap
  have hpasses := hp.passes
  have hclosed := hp.closed
  rw [DeclarationParts.tokens, Token.passes_append, hfront] at hpasses
  rw [DeclarationParts.tokens, Token.depthBehind_append, hfront] at hclosed
  exact ⟨hpasses.2, hclosed⟩

/-- The parts of a declaration are read as that declaration. -/
theorem declaration_of_parts (before : String) (finish : Location) {p : DeclarationParts}
    (hp : p.Lawful) {after rest : List Token} (hafter : Token.AllTrivia after)
    (hnil : p.value = [] → after = []) (hrest : ∀ t ∈ rest.head?, endsValue t.kind = true) :
    declaration before (Token.start .origin p.name) finish (p.tokens ++ after ++ rest) =
      .ok (.leaf (.declaration (p.declaration before
        (if Token.headKind rest = .semicolon then after else []) (Token.headKind rest = .semicolon))),
        p.tokens.length + if Token.headKind rest = .semicolon then after.length + 1 else 0) := by
  have hvaluePasses : Token.Passes endsValue 0 (p.value ++ after) :=
    Token.passes_append.2 ⟨(lawful_value_passes hp).1.mono endsHead_of_endsValue,
      Token.passes_trivia isTrivia_endsValue hafter _⟩
  have hvalueClosed : Token.depthBehind 0 (p.value ++ after) = 0 := by
    rw [Token.depthBehind_append, (lawful_value_passes hp).2, Token.depthBehind_trivia hafter]
  have hvalue : (splitMarker (Token.source p.value)).1 ≠ [] ∨
      (sourceText p.name).toList.take 2 = ['-', '-'] := by
    refine hp.has_value.imp_right fun ⟨cs, hname⟩ => ?_
    simp [sourceText, hname]
  have hname : Token.Passes endsProperty 0 (p.name ++ p.nameGap) := Token.passes_append.2
    ⟨hp.name_passes, Token.passes_trivia isTrivia_endsProperty hp.nameGap _⟩
  have hwritten : significant (p.name ++ p.nameGap) = p.name :=
    significant_append hp.name_last hp.nameGap
  have hread := declarationValue_of_parts (sourceText p.name) before
    (sourceText p.nameGap ++ String.ofList p.colon.text) (Token.start .origin p.name) finish hp.gap
    hp.value_first hp.value_last hafter hnil hvaluePasses fun t ht => ⟨hvalueClosed, hrest t ht⟩
  rw [if_neg fun h => hvalue.elim (· h.1) h.2] at hread
  have hcolon : ∀ t ∈ (p.colon :: (p.gap ++ (p.value ++ after ++ rest))).head?,
      Token.depthBehind 0 (p.name ++ p.nameGap) = 0 ∧ endsProperty t.kind = true := by
    intro t ht
    cases ht
    exact ⟨lawful_name_closed hp, by rw [hp.colon]; rfl⟩
  have hcut := Token.spanUntil_of_passes hname hcolon
  have hparts : p.tokens ++ after ++ rest =
      p.name ++ p.nameGap ++ p.colon :: (p.gap ++ (p.value ++ after ++ rest)) := by
    simp [DeclarationParts.tokens]
  rw [hparts, declaration, hcut]
  rcases hc : p.colon with ⟨kind, place, sign⟩
  obtain rfl : kind = .colon := by rw [← hp.colon, hc]
  rw [hc] at hread
  dsimp only
  rw [hwritten, if_neg hp.name_ne_nil, List.drop_left, hread]
  simp only [Except.map, DeclarationParts.declaration, DeclarationParts.split, hc, sourceText,
    String.ofList_append, DeclarationParts.tokens, List.length_append, List.length_cons]
  by_cases hs : Token.headKind rest = .semicolon
  · simp only [hs, if_true, Nat.add_assoc, Nat.add_comm, Nat.add_left_comm]
  · simp only [hs, if_false, Nat.add_assoc, Nat.add_comm, Nat.add_left_comm]

/-- The parts of a declaration do not look like the head of a rule. -/
theorem read_of_parts (finish : Location) {p : DeclarationParts} (hp : p.Lawful)
    {ws after rest : List Token} (hws : Token.AllBlank ws) (hafter : Token.AllTrivia after)
    (hnil : p.value = [] → after = []) (hrest : ∀ t ∈ rest.head?, endsValue t.kind = true) :
    read false true finish (ws ++ (p.tokens ++ after ++ rest)) =
      .ok (.leaf (.declaration (p.declaration (sourceText ws)
        (if Token.headKind rest = .semicolon then after else []) (Token.headKind rest = .semicolon))),
        ws.length +
          (p.tokens.length + if Token.headKind rest = .semicolon then after.length + 1 else 0)) := by
  obtain ⟨t, ts, hname⟩ := List.exists_cons_of_ne_nil hp.name_ne_nil
  have htokens : p.tokens ++ after ++ rest =
      t :: (ts ++ p.nameGap ++ p.colon :: p.gap ++ p.value ++ after ++ rest) := by
    simp [DeclarationParts.tokens, hname]
  have hplain : t.kind.startsPlain = true := by
    have h := hp.starts
    rw [hname] at h
    exact h
  have hpasses : Token.Passes endsHead 0 (p.tokens ++ after) :=
    Token.passes_append.2 ⟨hp.passes, Token.passes_trivia isTrivia_endsHead hafter _⟩
  have hclosed : Token.depthBehind 0 (p.tokens ++ after) = 0 := by
    rw [Token.depthBehind_append, hp.closed, Token.depthBehind_trivia hafter]
  have hcut := Token.spanUntil_of_passes hpasses
    fun t ht => ⟨hclosed, endsHead_of_endsValue _ (hrest t ht)⟩
  have hbrace : Token.headKind rest ≠ .leftBrace := by
    cases rest with
    | nil => exact nofun
    | cons v rest =>
      intro hv
      have h := hrest v rfl
      rw [show v.kind = .leftBrace from hv] at h
      exact Bool.false_ne_true h
  have hread := declaration_of_parts (sourceText ws) finish hp hafter hnil hrest
  rw [hname] at hread
  rw [htokens] at hcut hread ⊢
  refine read_of_readAt hws (startsPlain_not_isWhitespace hplain) ?_
  rw [readAt_plain hplain, hcut, if_neg hbrace, if_pos rfl]
  exact hread

/-- A node without a block is read as it is laid out. -/
theorem read_of_leaf (finish : Location) {nested : Bool} {ws ts rest tail : List Token} {n : Node}
    (hws : Token.AllBlank ws) (h : Leaf nested (sourceText ws) ts rest n)
    (htail : ∀ t ∈ tail.head?, t.kind = .rightBrace) (htop : nested = false → tail = []) :
    read false nested finish (ws ++ (ts ++ (rest ++ tail))) =
      .ok (.leaf n, ws.length + ts.length) := by
  cases h with
  | @comment t content _ kind =>
    refine read_of_readAt hws (by rw [Token.isWhitespace, kind]; rfl) ?_
    simp only [readAt, kind]
    rfl
  | @statement t semicolon name run _ kind passes closed ends =>
    rw [List.append_assoc, List.cons_append]
    refine read_of_readAt hws (by rw [Token.isWhitespace, kind]; rfl) ?_
    simp only [readAt, kind]
    rw [atRule_of_passes passes fun u hu => by cases hu; exact ⟨closed, by rw [ends]; rfl⟩]
    simp [Token.headKind, ends]
  | @lastStatement t name run kind passes closed =>
    rw [List.nil_append, List.cons_append]
    refine read_of_readAt hws (by rw [Token.isWhitespace, kind]; rfl) ?_
    simp only [readAt, kind]
    have hends : ∀ u ∈ tail.head?, Token.depthBehind 0 run = 0 ∧ endsHead u.kind = true := by
      intro u hu
      refine ⟨closed ?_, by rw [htail u hu]; rfl⟩
      by_cases hn : nested = true
      · exact hn
      · rw [htop (Bool.eq_false_iff.2 hn)] at hu
        exact absurd hu nofun
    rw [atRule_of_passes passes hends]
    cases tail with
    | nil => rfl
    | cons u tail => simp [Token.headKind, htail u rfl]
  | @declaration p after _ semicolon inside lawful after_trivia after_nil ends =>
    subst inside
    have hrest : ∀ u ∈ (semicolon :: (rest ++ tail)).head?, endsValue u.kind = true := by
      intro u hu
      cases hu
      rw [ends]
      rfl
    have hread := read_of_parts finish lawful hws after_trivia after_nil hrest
    rw [List.append_assoc, List.singleton_append, hread]
    simp [Token.headKind, ends]
  | @lastDeclaration p _ inside lawful rest_trivia rest_nil =>
    subst inside
    have htail' : ∀ u ∈ tail.head?, endsValue u.kind = true := by
      intro u hu
      rw [htail u hu]
      rfl
    have hread := read_of_parts finish lawful hws rest_trivia rest_nil htail'
    have hlast : Token.headKind tail ≠ .semicolon := by
      cases tail with
      | nil => exact nofun
      | cons u tail => rw [Token.headKind, htail u rfl]; exact nofun
    rw [← List.append_assoc p.tokens, hread]
    simp [hlast]

theorem leaf_ne_nil {nested : Bool} {before : String} {ts rest : List Token} {n : Node}
    (h : Leaf nested before ts rest n) : ts ≠ [] := by
  cases h <;> simp [DeclarationParts.tokens]

theorem opens_ne_nil {before : String} {head : List Token} {o : Opening}
    (h : Opens before head o) : head ≠ [] := by
  cases h <;> simp

/-- The start of a block is read as it is laid out. -/
theorem read_of_opens (nested : Bool) (finish : Location) {ws head : List Token}
    (more : List Token) {o : Opening} (hws : Token.AllBlank ws) (h : Opens (sourceText ws) head o) :
    read false nested finish (ws ++ (head ++ more)) = .ok (.opening o, ws.length + head.length) := by
  cases h with
  | @rule run brace ends starts passes closed =>
    have hbrace : ∀ u ∈ (brace :: more).head?,
        Token.depthBehind 0 run = 0 ∧ endsHead u.kind = true := by
      intro u hu
      cases hu
      exact ⟨closed, by rw [ends]; rfl⟩
    have hcut := Token.spanUntil_of_passes passes hbrace
    obtain ⟨t, ts, hhead⟩ := List.exists_cons_of_ne_nil (List.concat_ne_nil brace run)
    rw [hhead] at starts ⊢
    rw [List.cons_append]
    have hplain : t.kind.startsPlain = true := starts
    refine read_of_readAt hws (startsPlain_not_isWhitespace hplain) ?_
    have hmore : t :: (ts ++ more) = run ++ brace :: more := by
      rw [← List.cons_append, ← hhead, List.append_assoc, List.singleton_append]
    have hlength : (t :: ts).length = run.length + 1 := by rw [← hhead]; simp
    rw [readAt_plain hplain, hmore, hcut, Token.headKind, if_pos ends, hlength]
    rfl
  | @atRule t brace name run kind passes closed ends =>
    rw [List.cons_append, List.cons_append]
    refine read_of_readAt hws (by rw [Token.isWhitespace, kind]; rfl) ?_
    simp only [readAt, kind]
    rw [List.append_assoc, List.singleton_append,
      atRule_of_passes passes fun u hu => by cases hu; exact ⟨closed, by rw [ends]; rfl⟩]
    simp [Token.headKind, ends]

theorem read_of_sign (nested : Bool) (finish : Location) {ws : List Token} (more : List Token)
    {t : Token} (hws : Token.AllBlank ws) (h : t.kind.isSign = true) :
    read false nested finish (ws ++ t :: more) = .ok (.stray, ws.length + 1) := by
  have hcases : t.kind = .semicolon ∨ t.kind = .commentOpen ∨ t.kind = .commentClose := by
    unfold TokenKind.isSign at h
    split at h <;> simp_all
  rcases hcases with hk | hk | hk <;>
    exact read_of_readAt hws (by rw [Token.isWhitespace, hk]; rfl) (by simp only [readAt, hk])

theorem read_of_closing (finish : Location) {ws : List Token} (more : List Token) {t : Token}
    (hws : Token.AllBlank ws) (h : t.kind = .rightBrace) :
    read false true finish (ws ++ t :: more) = .ok (.closing (sourceText ws), ws.length + 1) :=
  read_of_readAt hws (by rw [Token.isWhitespace, h]; rfl) (by simp only [readAt, h]; rfl)

/-! ## Whole token lists -/

/-- The items of a strict reader with `d` blocks open. -/
def itemsFrom (finish : Location) (d : Nat) (ts : List Token) : Except ParseError (List Item) :=
  (readFrom false finish 0 d ts).map Piece.values

theorem readFrom_pending {lenient : Bool} (finish : Location) (n d : Nat) (ts : List Token) :
    readFrom lenient finish n d ts = readFrom lenient finish 0 d (ts.drop n) := by
  induction ts generalizing n with
  | nil => simp [readFrom]
  | cons t ts ih =>
    cases n with
    | zero => rfl
    | succ n => exact ih n

theorem itemsFrom_nil (finish : Location) (d : Nat) :
    itemsFrom finish d [] = if d = 0 then .ok [] else .error ⟨.unclosedBlock, finish⟩ := by
  by_cases hd : d = 0 <;> simp [itemsFrom, readFrom, hd, Except.map, Piece.values]

theorem itemsFrom_of_error {finish : Location} {d : Nat} {ts : List Token} {e : ParseError}
    (hts : ts ≠ []) (h : read false (d != 0) finish ts = .error e) :
    itemsFrom finish d ts = .error e := by
  obtain ⟨t, ts, rfl⟩ := List.exists_cons_of_ne_nil hts
  rw [itemsFrom, readFrom, h]
  rfl

/-- Reading goes on behind an item. -/
theorem itemsFrom_of_read {finish : Location} {d : Nat} {front : List Token} (more : List Token)
    {item : Item} (h : read false (d != 0) finish (front ++ more) = .ok (item, front.length))
    (hfront : front ≠ []) :
    itemsFrom finish d (front ++ more) =
      (itemsFrom finish (item.depth d) more).map (item :: ·) := by
  obtain ⟨t, ts, rfl⟩ := List.exists_cons_of_ne_nil hfront
  rw [List.cons_append] at h ⊢
  rw [itemsFrom, readFrom, h]
  simp only [List.length_cons, Nat.add_sub_cancel]
  rw [readFrom_pending, itemsFrom, List.drop_left]
  rcases readFrom false finish 0 (item.depth d) more with e | items <;> rfl

theorem map_cons_append {ε : Type} (x : Except ε (List Item)) (item : Item) (items : List Item) :
    (x.map (items ++ ·)).map (item :: ·) = x.map (item :: items ++ ·) := by
  rcases x with e | more <;> rfl

end Item

namespace Layout

open Item

/-- The items in front of the blanks behind the last node. -/
def items : Layout → List Item
  | ending _ => []
  | sign _ _ rest => .stray :: rest.items
  | leaf _ _ n rest => .leaf n :: rest.items
  | block _ _ o inner _ rest => .opening o :: inner.items ++ .closing inner.after :: rest.items

theorem last_allBlank {nested : Bool} {c : Layout} (hc : c.Lawful nested) :
    Token.AllBlank c.last := by
  induction c with
  | ending blanks => exact hc
  | sign blanks t rest ih => exact ih hc.2.2
  | leaf blanks ts n rest ih => exact ih hc.2.2
  | block blanks head o inner innerEnd rest ihInner ihRest => exact ihRest hc.2.2.2.2

/-- The items of a lawful layout are read in front of the end or of a closing brace. -/
theorem itemsFrom_tokens {finish : Location} {c : Layout} {d : Nat} {tail : List Token}
    (hc : c.Lawful (d != 0)) (htail : ∀ t ∈ tail.head?, t.kind = .rightBrace)
    (htop : d = 0 → tail = []) :
    itemsFrom finish d (c.tokens ++ tail) =
      (itemsFrom finish d (c.last ++ tail)).map (c.items ++ ·) := by
  induction c generalizing d tail with
  | ending blanks =>
    simp only [tokens, last, items, List.nil_append]
    rcases itemsFrom finish d (blanks ++ tail) with e | items <;> rfl
  | sign blanks t rest ih =>
    obtain ⟨hblanks, ht, hrest⟩ := hc
    have hread : Item.read false (d != 0) finish (blanks ++ [t] ++ (rest.tokens ++ tail)) =
        .ok (.stray, (blanks ++ [t]).length) := by
      simpa using read_of_sign (d != 0) finish (rest.tokens ++ tail) hblanks ht
    have hstep := itemsFrom_of_read (rest.tokens ++ tail) hread (by simp)
    rw [tokens, last, items, ← map_cons_append, ← ih hrest htail htop]
    simpa [Item.depth] using hstep
  | leaf blanks ts n rest ih =>
    obtain ⟨hblanks, hleaf, hrest⟩ := hc
    have hread : Item.read false (d != 0) finish (blanks ++ ts ++ (rest.tokens ++ tail)) =
        .ok (.leaf n, (blanks ++ ts).length) := by
      simpa using read_of_leaf finish hblanks hleaf htail (by simpa using htop)
    have hstep := itemsFrom_of_read (rest.tokens ++ tail) hread (by simp [leaf_ne_nil hleaf])
    rw [tokens, last, items, ← map_cons_append, ← ih hrest htail htop]
    simpa [Item.depth] using hstep
  | block blanks head o inner innerEnd rest ihInner ihRest =>
    obtain ⟨hblanks, hopens, hinner, hend, hrest⟩ := hc
    have hopened : Item.read false (d != 0) finish
        (blanks ++ head ++ (inner.tokens ++ innerEnd :: (rest.tokens ++ tail))) =
          .ok (.opening o, (blanks ++ head).length) := by
      simpa using read_of_opens (d != 0) finish _ hblanks hopens
    have hclosed : Item.read false (d + 1 != 0) finish
        (inner.last ++ [innerEnd] ++ (rest.tokens ++ tail)) =
          .ok (.closing (sourceText inner.last), (inner.last ++ [innerEnd]).length) := by
      simpa using read_of_closing finish (rest.tokens ++ tail) (last_allBlank hinner) hend
    have hbetween : itemsFrom finish (d + 1) (inner.tokens ++ innerEnd :: (rest.tokens ++ tail)) =
        (itemsFrom finish (d + 1) (inner.last ++ innerEnd :: (rest.tokens ++ tail))).map
          (inner.items ++ ·) :=
      ihInner hinner (fun u hu => by cases hu; exact hend) nofun
    have hopening := itemsFrom_of_read _ hopened (by simp [opens_ne_nil hopens])
    have hclosing := itemsFrom_of_read _ hclosed (by simp)
    simp only [List.append_assoc, List.singleton_append, Item.depth, Nat.add_sub_cancel]
      at hopening hclosing
    rw [hbetween, hclosing, ihRest hrest htail htop] at hopening
    simp only [tokens, last, items, List.append_assoc, List.cons_append]
    rw [hopening]
    rcases itemsFrom finish d (rest.last ++ tail) with e | more <;> simp [Except.map, after]

theorem assemble_items (origin : Option String) (c : Layout) (outer : List OpenBlock)
    (nodes : Array Node) (more : List Item) :
    Stylesheet.assemble origin outer nodes (c.items ++ more) =
      Stylesheet.assemble origin outer (nodes ++ c.nodes.toArray) more := by
  induction c generalizing outer nodes more with
  | ending blanks => simp [items, Layout.nodes]
  | sign blanks t rest ih => simp [items, Layout.nodes, Stylesheet.assemble, ih]
  | leaf blanks ts n rest ih => simp [items, Layout.nodes, Stylesheet.assemble, ih]
  | block blanks head o inner innerEnd rest ihInner ihRest =>
    simp [items, Layout.nodes, Stylesheet.assemble, ihInner, ihRest]

end Layout
end GradientFallback
