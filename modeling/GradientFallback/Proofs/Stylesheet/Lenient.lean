import GradientFallback.Proofs.Stylesheet.Reading
import Mathlib.Data.List.TakeWhile

/-! # Lenient reading

A lenient reader passes what is broken up to its end.  Nothing in that alone keeps it from standing
still: the end of a broken construct can be its own first token.  It never is, so each step takes a
token and the reader gets to the end of every text; where nothing is broken it reads what a strict
reader reads.
-/
namespace GradientFallback
namespace Item

/-- The number of tokens up to the end of a broken construct. -/
def skipped (ts : List Token) : Nat :=
  let (run, rest) := Token.spanUntil endsValue 0 ts
  run.length + if Token.headKind rest = .semicolon then 1 else 0

theorem brokenWidth_eq (ts : List Token) : brokenWidth ts = max 1 (skipped ts) := rfl

/-- One step of a lenient reader with `d` blocks open: the item that is read from the tokens, and
the tokens behind it. -/
inductive Next (finish : Location) (d : Nat) : List Token → Item → List Token → Prop
  | ending {ws : List Token} (blanks : Token.AllBlank ws) (ne_nil : ws ≠ []) :
      Next finish d ws (.ending (sourceText ws)) []
  | whole {ws ts : List Token} {t : Token} {item : Item} {width : Nat} (blanks : Token.AllBlank ws)
      (starts : t.isWhitespace = false)
      (reads : readAt (d != 0) finish (sourceText ws) t ts = .ok (item, width)) :
      Next finish d (ws ++ t :: ts) item ((t :: ts).drop width)
  /-- A brace that closes no block is passed by itself. -/
  | brace {ws ts : List Token} {t : Token} (blanks : Token.AllBlank ws)
      (kind : t.kind = .rightBrace) (outside : d = 0) : Next finish d (ws ++ t :: ts) .stray ts
  | broken {ws ts : List Token} {t : Token} {e : ParseError} (blanks : Token.AllBlank ws)
      (starts : t.isWhitespace = false) (other : t.kind ≠ .rightBrace)
      (fails : readAt (d != 0) finish (sourceText ws) t ts = .error e) :
      Next finish d (ws ++ t :: ts) .stray ((t :: ts).drop (skipped (t :: ts)))

/-- The items that a lenient reader reads step by step, with `d` blocks open, until no token is
left. -/
inductive Course (finish : Location) : Nat → List Token → List Item → Prop
  | done {d : Nat} : Course finish d [] []
  | step {d : Nat} {ts rest : List Token} {item : Item} {items : List Item}
      (first : Next finish d ts item rest) (others : Course finish (item.depth d) rest items) :
      Course finish d ts (item :: items)

/-! ## Each step takes a token -/

theorem width_pos_of_declaration {before : String} {location finish : Location} {ts : List Token}
    {item : Item} {width : Nat} (h : declaration before location finish ts = .ok (item, width)) :
    0 < width := by
  simp only [declaration] at h
  split at h
  · split at h
    · cases h
    · obtain ⟨r, -, hr⟩ := exists_of_map_eq_ok h
      have hwidth := congrArg Prod.snd hr
      dsimp only at hwidth
      omega
  · cases h

/-- A construct that is read takes a token. -/
theorem width_pos_of_readAt {nested : Bool} {finish : Location} {before : String} {t : Token}
    {ts : List Token} {item : Item} {width : Nat}
    (h : readAt nested finish before t ts = .ok (item, width)) : 0 < width := by
  have hattempt := attempt_readAt nested finish before t ts
  generalize readAt nested finish before t ts = r at h hattempt
  cases hattempt with
  | closing kind inside =>
    cases h
    exact Nat.one_pos
  | unexpected kind outside => cases h
  | stray kind =>
    cases h
    exact Nat.one_pos
  | comment kind =>
    cases h
    exact Nat.one_pos
  | atRule kind =>
    cases h
    exact Nat.succ_pos _
  | rule plain brace =>
    cases h
    exact Nat.succ_pos _
  | declaration plain brace inside => exact width_pos_of_declaration h
  | misplaced plain brace outside => cases h

/-- What is broken does not start with its end. -/
theorem skipped_pos_of_readAt {nested : Bool} {finish : Location} {before : String} {t : Token}
    {ts : List Token} {e : ParseError} (h : readAt nested finish before t ts = .error e)
    (hbrace : t.kind ≠ .rightBrace) : 0 < skipped (t :: ts) := by
  have hsemicolon : t.kind ≠ .semicolon := by
    intro hkind
    simp only [readAt, hkind] at h
    cases h
  have hgoes : endsValue t.kind = false := by
    unfold endsValue
    split
    · next hkind => exact absurd hkind hsemicolon
    · next hkind => exact absurd hkind hbrace
    · rfl
  rw [skipped, Token.spanUntil, if_neg fun hends => Bool.false_ne_true (hgoes.symm.trans hends.2)]
  simp only [List.length_cons]
  omega

variable {finish : Location}

theorem Next.length_lt {d : Nat} {ts rest : List Token} {item : Item}
    (h : Next finish d ts item rest) : rest.length < ts.length := by
  cases h with
  | ending blanks ne_nil => exact List.length_pos_iff.2 ne_nil
  | whole blanks starts reads =>
    have hwidth := width_pos_of_readAt reads
    simp only [List.length_append, List.length_drop, List.length_cons]
    omega
  | brace blanks kind outside =>
    simp only [List.length_append, List.length_cons]
    omega
  | broken blanks starts other fails =>
    have hwidth := skipped_pos_of_readAt fails other
    simp only [List.length_append, List.length_drop, List.length_cons]
    omega

/-- There is a step in front of any tokens. -/
theorem Next.exists (finish : Location) (d : Nat) {ts : List Token} (hts : ts ≠ []) :
    ∃ item rest, Next finish d ts item rest := by
  rcases Token.all_or_first Token.isWhitespace ts with hblanks | ⟨ws, t, more, hblanks, hstarts, rfl⟩
  · exact ⟨_, _, .ending hblanks hts⟩
  · rcases hread : readAt (d != 0) finish (sourceText ws) t more with e | ⟨item, width⟩
    · by_cases hbrace : t.kind = .rightBrace
      · cases d with
        | zero => exact ⟨_, _, .brace hblanks hbrace rfl⟩
        | succ d =>
          simp only [readAt, hbrace] at hread
          cases hread
      · exact ⟨_, _, .broken hblanks hstarts hbrace hread⟩
    · exact ⟨_, _, .whole hblanks hstarts hread⟩

/-- A lenient reader does the step. -/
theorem Next.read {d : Nat} {ts rest : List Token} {item : Item}
    (h : Next finish d ts item rest) :
    ∃ width, read true (d != 0) finish ts = .ok (item, width) ∧ 0 < width ∧
      ts.drop width = rest := by
  cases h with
  | ending blanks ne_nil =>
    exact ⟨_, read_blanks blanks, List.length_pos_iff.2 ne_nil, List.drop_length⟩
  | @whole ws ts t item width blanks starts reads =>
    have hwidth := width_pos_of_readAt reads
    exact ⟨_, read_of_readAt blanks starts reads, by omega, by simp⟩
  | @brace ws _ t blanks kind outside =>
    refine ⟨ws.length + 1, ?_, by omega, by simp⟩
    have hstarts : t.isWhitespace = false := by
      rw [Token.isWhitespace, kind]
      rfl
    have hends : Token.spanUntil endsValue 0 (t :: rest) = ([], t :: rest) := by
      rw [Token.spanUntil, kind]
      rfl
    have hwidth : brokenWidth (t :: rest) = 1 := by
      simp [brokenWidth, hends, Token.headKind, kind]
    have hfails : readAt (d != 0) finish (sourceText ws) t rest =
        .error ⟨.unexpectedBrace, t.location⟩ := by
      simp [readAt, kind, outside]
    rw [read_of_error blanks hstarts hfails, hwidth]
  | @broken ws ts t e blanks starts other fails =>
    have hwidth := skipped_pos_of_readAt fails other
    have hbroken : brokenWidth (t :: ts) = skipped (t :: ts) := by
      rw [brokenWidth_eq]
      omega
    refine ⟨ws.length + skipped (t :: ts), ?_, by omega, by simp⟩
    rw [read_of_error blanks starts fails, hbroken]

/-! ## All steps -/

theorem Course.length_le {d : Nat} {ts : List Token} {items : List Item}
    (h : Course finish d ts items) : items.length ≤ ts.length := by
  induction h with
  | done => exact Nat.zero_le _
  | step first others ih =>
    have hfirst := first.length_lt
    rw [List.length_cons]
    omega

/-- A lenient reader gets to the end of the tokens. -/
theorem Course.exists (finish : Location) (d : Nat) (ts : List Token) :
    ∃ items, Course finish d ts items := by
  induction hlength : ts.length using Nat.strongRecOn generalizing d ts with
  | ind l ih =>
    by_cases hts : ts = []
    · rw [hts]
      exact ⟨_, .done⟩
    · obtain ⟨item, rest, hfirst⟩ := Next.exists finish d hts
      have hshort : rest.length < l := hlength ▸ hfirst.length_lt
      obtain ⟨items, hothers⟩ := ih rest.length hshort (item.depth d) rest rfl
      exact ⟨_, .step hfirst hothers⟩

theorem Course.readFrom {d : Nat} {ts : List Token} {items : List Item}
    (h : Course finish d ts items) :
    (readFrom true finish 0 d ts).map Piece.values = .ok items := by
  induction h with
  | done => simp [Item.readFrom, Except.map, Piece.values]
  | @step d ts rest item items first others ih =>
    obtain ⟨width, hread, hwidth, rfl⟩ := first.read
    obtain ⟨n, rfl⟩ := Nat.exists_eq_add_one.2 hwidth
    cases ts with
    | nil => exact absurd first.length_lt (Nat.not_lt_zero _)
    | cons t ts =>
      rw [Item.readFrom, hread]
      simp only [Nat.add_sub_cancel]
      rw [readFrom_pending]
      rw [List.drop_succ_cons] at ih
      rcases hmore : Item.readFrom true finish 0 (item.depth d) (ts.drop n) with e | pieces
      · rw [hmore] at ih
        cases ih
      · rw [hmore] at ih
        have hvalues : Piece.values pieces = items := Except.ok.inj ih
        rw [← hvalues]
        rfl

/-! ## Where nothing is broken -/

theorem read_of_strict {nested : Bool} {finish : Location} {ts : List Token} {r : Item × Nat}
    (h : read false nested finish ts = .ok r) : read true nested finish ts = .ok r := by
  simp only [read] at h ⊢
  split at h
  · exact h
  · split at h
    · exact h
    · cases h

theorem readFrom_of_strict {n d : Nat} {ts : List Token} {items : List (Piece Token Item)}
    (h : readFrom false finish n d ts = .ok items) : readFrom true finish n d ts = .ok items := by
  induction ts generalizing n d items with
  | nil =>
    simp only [readFrom] at h ⊢
    split at h
    · simpa using h
    · cases h
  | cons t ts ih =>
    cases n with
    | succ n => exact ih h
    | zero =>
      rw [readFrom] at h ⊢
      rcases hread : read false (d != 0) finish (t :: ts) with e | ⟨item, width⟩
      · rw [hread] at h
        cases h
      · rw [hread] at h
        rw [read_of_strict hread]
        obtain ⟨more, hmore, hitems⟩ := exists_of_map_eq_ok h
        rw [← hitems]
        exact congrArg (Except.map _) (ih hmore)

end Item

namespace Stylesheet

/-- What either reader reads has been read step by step. -/
theorem exists_course {config : ParseConfig} {text : String} {s : Stylesheet}
    (h : parse config text = .ok s) :
    ∃ items, Item.Course (config.start.advance (unifyLineEnds text.toList)) 0
      (Token.lex config.start (unifyLineEnds text.toList)) items ∧
      ofItems config.origin items = s := by
  obtain ⟨pieces, hpieces, rfl⟩ := exists_of_map_eq_ok h
  obtain ⟨items, hcourse⟩ := Item.Course.exists
    (config.start.advance (unifyLineEnds text.toList)) 0
    (Token.lex config.start (unifyLineEnds text.toList))
  refine ⟨items, hcourse, ?_⟩
  have hlenient : Item.readAll true (config.start.advance (unifyLineEnds text.toList))
      (Token.lex config.start (unifyLineEnds text.toList)) = .ok pieces := by
    rcases hmode : config.lenient with _ | _
    · rw [hmode] at hpieces
      exact Item.readFrom_of_strict hpieces
    · rw [hmode] at hpieces
      exact hpieces
  have hread := hcourse.readFrom
  rw [Item.readAll] at hlenient
  rw [hlenient] at hread
  rw [← Except.ok.inj hread]

/-- A lenient reader reads every text, in as many steps as it has tokens or fewer, and where a strict
reader reads a stylesheet it reads the same one. -/
theorem parse_lenient (config : ParseConfig) (text : String) :
    (∃ items, Item.Course (config.start.advance (unifyLineEnds text.toList)) 0
        (Token.lex config.start (unifyLineEnds text.toList)) items ∧
      items.length ≤ (Token.lex config.start (unifyLineEnds text.toList)).length ∧
      parse { config with lenient := true } text = .ok (ofItems config.origin items)) ∧
    ∀ s, parse { config with lenient := false } text = .ok s →
      parse { config with lenient := true } text = .ok s := by
  constructor
  · obtain ⟨items, hcourse⟩ := Item.Course.exists
      (config.start.advance (unifyLineEnds text.toList)) 0
      (Token.lex config.start (unifyLineEnds text.toList))
    refine ⟨items, hcourse, hcourse.length_le, ?_⟩
    obtain ⟨pieces, hpieces, rfl⟩ := exists_of_map_eq_ok hcourse.readFrom
    exact congrArg (Except.map _) hpieces
  · intro s hs
    obtain ⟨pieces, hpieces, rfl⟩ := exists_of_map_eq_ok hs
    exact congrArg (Except.map _) (Item.readFrom_of_strict hpieces)

theorem parse_lenient_nested :
    ∃ s, parse .strict "@media tv\x7ba\x7bb:c\x7d\x7d" = .ok s ∧
      parse { ParseConfig.strict with lenient := true } "@media tv\x7ba\x7bb:c\x7d\x7d" = .ok s := by
  obtain ⟨s, hs⟩ : ∃ s, parse .strict "@media tv\x7ba\x7bb:c\x7d\x7d" = .ok s := ⟨_, rfl⟩
  exact ⟨s, hs, (parse_lenient .strict _).2 s hs⟩

/-- A brace that closes no block and a declaration without a colon are passed, and the block is
closed at the end. -/
example : ∃ s, parse { ParseConfig.strict with lenient := true } "\x7da\x7bb(c" = .ok s ∧
    s.nodes = [.rule ⟨"a", ⟨1, 2, 1⟩, "", ""⟩ [] ""] := ⟨_, rfl, rfl⟩

end Stylesheet
end GradientFallback
