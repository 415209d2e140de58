import GradientFallback.Proofs.Gradient.Respelling
import GradientFallback.Proofs.Gradient.Spots

/-! # One more token of trivia

A token of trivia is passed wherever it is put into the tokens of a gradient, with two exceptions.
Directly behind the word `to` there has to be whitespace, and in the arguments of a color function
all tokens belong to the color.
-/
namespace GradientFallback
namespace Gradient

/-! ## Readers that ignore it -/

/-- The reader ignores one more token between `front` and `back`: if it stops in front of
that token, the token is among the ones that are left, and otherwise it is as if it was not there. -/
def Ignores {α : Type} (read : List Token → Option (α × List Token)) (c : Token)
    (front back : List Token) : Prop :=
  read (front ++ c :: back) = read (front ++ back) ∨
    ∃ v passed left, front = passed ++ left ∧ read (front ++ back) = some (v, left ++ back) ∧
      read (front ++ c :: back) = some (v, left ++ c :: back)

theorem Ignores.map {α β : Type} {c : Token} {front back : List Token}
    {read : List Token → Option (α × List Token)}
    (h : Ignores read c front back) (f : α → β) :
    Ignores (fun ts => (read ts).map fun r => (f r.1, r.2)) c front back := by
  rcases h with hsame | ⟨v, passed, left, hfront, hold, hnew⟩
  · exact .inl (by simp only [hsame])
  · exact .inr ⟨f v, passed, left, hfront, by simp only [hold, Option.map_some],
      by simp only [hnew, Option.map_some]⟩

/-- What stands first is passed, and another reader goes on behind it. -/
theorem Ignores.behind {α : Type} {c : Token} {front back : List Token}
    {read next : List Token → Option (α × List Token)} (h : Ignores next c front back)
    (passed : List Token) (hread : ∀ z, read (passed ++ front ++ z) = next (front ++ z)) :
    Ignores read c (passed ++ front) back := by
  rcases h with hsame | ⟨v, taken, left, rfl, hold, hnew⟩
  · exact .inl (by rw [hread, hread, hsame])
  · exact .inr ⟨v, passed ++ taken, left, (List.append_assoc ..).symm, (hread _).trans hold,
      (hread _).trans hnew⟩

theorem skipTrivia_suffix (ts : List Token) : skipTrivia ts <:+ ts := List.dropWhile_suffix _

theorem skipTrivia_skipTrivia (ts : List Token) : skipTrivia (skipTrivia ts) = skipTrivia ts := by
  obtain ⟨gap, hgap, hts, -⟩ := exists_gap ts
  rw [← skipTrivia_append hgap (skipTrivia ts), ← hts]

theorem nextSide?_eq (ts : List Token) : nextSide? ts =
    (side? (Token.headKind (skipTrivia ts))).map fun s => (s, (skipTrivia ts).tail) := by
  rw [nextSide?]
  cases skipTrivia ts <;> rfl

section Insert

variable {c : Token} (hc : c.isTrivia = true) (front back : List Token)

include hc

theorem skipTrivia_insert {gap : List Token} (hgap : Token.AllTrivia gap) :
    skipTrivia (gap ++ c :: back) = skipTrivia (gap ++ back) := by
  rw [skipTrivia_append hgap, skipTrivia_append hgap, skipTrivia, skipTrivia,
    List.dropWhile_cons_of_pos hc]

/-- A reader that skips trivia first has to be looked at only where something else comes first. -/
theorem Ignores.of_skip {α : Type} {read : List Token → Option (α × List Token)}
    (hskip : ∀ ts, read (skipTrivia ts) = read ts)
    (hsolid : ∀ gap t more, front = gap ++ t :: more → Token.AllTrivia gap → t.isTrivia = false →
      Ignores read c (t :: more) back) : Ignores read c front back := by
  rcases Token.all_or_first Token.isTrivia front with hgap | ⟨gap, t, more, hgap, ht, rfl⟩
  · refine .inl ?_
    rw [← hskip, skipTrivia_insert hc back hgap, hskip]
  · have hread (z : List Token) : read (gap ++ t :: more ++ z) = read (t :: more ++ z) := by
      rw [← hskip, List.append_assoc, List.cons_append, skipTrivia_gap hgap ht]
    exact (hsolid gap t more rfl hgap ht).behind gap hread

/-- A reader that asks one token behind trivia for its value stops behind that token. -/
theorem Ignores.of_single {α : Type} {read : List Token → Option (α × List Token)}
    {value? : TokenKind → Option α} (hread : ∀ ts, read ts =
      (value? (Token.headKind (skipTrivia ts))).map fun v => (v, (skipTrivia ts).tail)) :
    Ignores read c front back := by
  refine .of_skip hc front back (fun ts => by rw [hread, hread, skipTrivia_skipTrivia])
    fun _ t more _ _ ht => ?_
  have hsolid (z : List Token) :
      read (t :: more ++ z) = (value? t.kind).map fun v => (v, more ++ z) := by
    rw [hread, List.cons_append, skipTrivia_of_solid ht]
    rfl
  rcases hvalue : value? t.kind with _ | v
  · exact .inl (by rw [hsolid, hsolid, hvalue]; rfl)
  · exact .inr ⟨v, [t], more, rfl, by rw [hsolid, hvalue]; rfl, by rw [hsolid, hvalue]; rfl⟩

/-! ## The heading -/

theorem ignores_nextSide? : Ignores nextSide? c front back := .of_single hc front back nextSide?_eq

theorem ignores_sides? : Ignores sides? c front back := by
  rcases ignores_nextSide? hc front back with hsame | ⟨s, passed, left, rfl, hold, hnew⟩
  · exact .inl (by simp only [sides?, hsame])
  rcases ignores_nextSide? hc left back with hsame | ⟨s', passed', left', rfl, hold', hnew'⟩
  · rcases hsecond : nextSide? (left ++ back) with _ | ⟨s', rest⟩
    · exact .inr ⟨[s], passed, left, rfl, by simp only [sides?, hold, hsecond],
        by simp only [sides?, hnew, hsame, hsecond]⟩
    · exact .inl (by simp only [sides?, hold, hnew, hsame, hsecond])
  · by_cases haxes : s'.axis = s.axis
    · exact .inl (by simp only [sides?, hold, hnew, hold', hnew', if_pos haxes])
    · exact .inr ⟨[s, s'], passed ++ passed', left', by rw [List.append_assoc],
        by simp only [sides?, hold, hold', if_neg haxes],
        by simp only [sides?, hnew, hnew', if_neg haxes]⟩

/-- The last of the tokens is the word `to`, at the start of a line. -/
def EndsWithTo (ts : List Token) : Prop :=
  ∃ gap t, Token.AllTrivia gap ∧ t.kind.isIdentNamed "to" = true ∧ ts = gap ++ [t]

theorem ignores_line? (hto : ¬EndsWithTo front) : Ignores line? c front back := by
  refine .of_skip hc front back (fun ts => by rw [line?, line?, skipTrivia_skipTrivia])
    fun gap t more hfront hgap ht => ?_
  have hskip (z : List Token) : skipTrivia (t :: more ++ z) = t :: (more ++ z) := by
    rw [List.cons_append, skipTrivia_of_solid ht]
  rcases hangle : angle? t.kind with _ | h
  · have hread (z : List Token) : line? (t :: more ++ z) = corner? (t :: more ++ z) := by
      rw [line?, hskip, Token.headKind, hangle]
      rfl
    refine Ignores.behind ?_ [] hread
    by_cases hword : t.kind.isIdentNamed "to" = true
    · cases more with
      | nil => exact absurd ⟨gap, t, hgap, hword, hfront⟩ hto
      | cons u more =>
        have hcorner (z : List Token) : corner? (t :: u :: more ++ z) =
            if u.kind.isWhitespace then
              (sides? (u :: more ++ z)).map fun r => (.corner r.1 true, r.2)
            else none := if_pos hword
        by_cases hblank : u.kind.isWhitespace = true
        · have hsides := (ignores_sides? hc (u :: more) back).map
            fun s => (.corner s true : Heading Float)
          exact hsides.behind [t] fun z => (hcorner z).trans (if_pos hblank)
        · exact .inl (by rw [hcorner, hcorner, if_neg hblank, if_neg hblank])
    · have hsides := (ignores_sides? hc (t :: more) back).map
        fun s => (.corner s false : Heading Float)
      exact hsides.behind [] fun _ => if_neg hword
  · have hread (z : List Token) : line? (t :: more ++ z) = some (h, more ++ z) := by
      rw [line?, hskip, Token.headKind, hangle]
      rfl
    exact .inr ⟨h, [t], more, rfl, hread back, hread (c :: back)⟩

theorem ignores_readHeading (hto : ¬EndsWithTo front) :
    Ignores (fun ts => some (readHeading ts)) c front back := by
  have hplain (hold : readHeading (front ++ back) = (.none, front ++ back))
      (hnew : readHeading (front ++ c :: back) = (.none, front ++ c :: back)) :
      Ignores (fun ts => some (readHeading ts)) c front back :=
    .inr ⟨.none, [], front, rfl, congrArg some hold, congrArg some hnew⟩
  rcases ignores_line? hc front back hto with hsame | ⟨h, passed, left, hfront, hold, hnew⟩
  · rcases hline : line? (front ++ back) with _ | ⟨h, rest⟩
    · exact hplain (by rw [readHeading, hline]) (by rw [readHeading, hsame, hline])
    · rw [hline] at hsame
      by_cases hcomma : (Token.headKind (skipTrivia rest) == .comma) = true
      · refine .inl (congrArg some ?_)
        rw [readHeading_of_line? hline, readHeading_of_line? hsame, if_pos hcomma, if_pos hcomma]
      · exact hplain (by rw [readHeading_of_line? hline, if_neg hcomma])
          (by rw [readHeading_of_line? hsame, if_neg hcomma])
  · rcases Token.all_or_first Token.isTrivia left with hgap | ⟨gap, t, more, hgap, ht, rfl⟩
    · have hskip := skipTrivia_insert hc back hgap
      by_cases hcomma : (Token.headKind (skipTrivia (left ++ back)) == .comma) = true
      · refine .inl (congrArg some ?_)
        rw [readHeading_of_line? hold, readHeading_of_line? hnew, hskip, if_pos hcomma,
          if_pos hcomma]
      · exact hplain (by rw [readHeading_of_line? hold, if_neg hcomma])
          (by rw [readHeading_of_line? hnew, hskip, if_neg hcomma])
    · have hskip (z : List Token) : skipTrivia (gap ++ t :: more ++ z) = t :: (more ++ z) := by
        rw [List.append_assoc, List.cons_append, skipTrivia_gap hgap ht]
      by_cases hcomma : (t.kind == .comma) = true
      · refine .inr ⟨h, passed ++ (gap ++ [t]), more, by rw [hfront]; simp,
          congrArg some ?_, congrArg some ?_⟩
        · rw [readHeading_of_line? hold, hskip, Token.headKind, if_pos hcomma]
          rfl
        · rw [readHeading_of_line? hnew, hskip, Token.headKind, if_pos hcomma]
          rfl
      · exact hplain
          (by rw [readHeading_of_line? hold, hskip, Token.headKind, if_neg hcomma])
          (by rw [readHeading_of_line? hnew, hskip, Token.headKind, if_neg hcomma])

end Insert

/-! ## Colors -/

theorem not_opens_of_isTrivia {k : TokenKind} (h : k.isTrivia = true) :
    k.opens = false ∧ k.closes = false := by
  cases k <;> first | exact ⟨rfl, rfl⟩ | exact absurd h nofun

theorem closing?_isPrefix {depth : Nat} {ts run : List Token} (h : closing? depth ts = some run) :
    run <+: ts := by
  induction ts generalizing depth run with
  | nil => exact absurd h nofun
  | cons t ts ih =>
    have hcons {next : Nat} (hmap : (closing? next ts).map (t :: ·) = some run) : run <+: t :: ts := by
      obtain ⟨more, hmore, rfl⟩ := Option.map_eq_some_iff.1 hmap
      exact List.cons_prefix_cons.2 ⟨rfl, ih hmore⟩
    by_cases hopens : t.kind.opens = true
    · exact hcons ((closing?_opens ts hopens depth).symm.trans h)
    by_cases hcloses : t.kind.closes = true
    · cases depth with
      | zero =>
        rw [closing?_zero ts hcloses, Option.some_inj] at h
        exact ⟨ts, by rw [← h]; rfl⟩
      | succ depth => exact hcons ((closing?_succ ts hcloses depth).symm.trans h)
    · exact hcons ((closing?_plain ts (Bool.eq_false_iff.2 hopens) (Bool.eq_false_iff.2 hcloses)
        depth).symm.trans h)

/-- What closes is among the tokens, whatever follows them, or it is looked for behind them, as deep
inside as they lead. -/
theorem closing?_cases (depth : Nat) (ts : List Token) :
    (∃ run left, ts = run ++ left ∧ ∀ z, closing? depth (ts ++ z) = some run) ∨
      ∃ inner, (∀ commas, Spot.behind? ⟨commas, depth + 1⟩ ts = some ⟨commas, inner + 1⟩) ∧
        ∀ z, closing? depth (ts ++ z) = (closing? inner z).map (ts ++ ·) := by
  induction ts generalizing depth with
  | nil =>
    refine .inr ⟨depth, fun _ => rfl, fun z => ?_⟩
    cases hz : closing? depth z <;> simp [hz]
  | cons t ts ih =>
    have hcons {next : Nat} (hread : ∀ z, closing? depth (t :: ts ++ z) =
        (closing? next (ts ++ z)).map (t :: ·))
        (hspot : ∀ commas, Spot.next? ⟨commas, depth + 1⟩ t.kind = some ⟨commas, next + 1⟩) :
        (∃ run left, t :: ts = run ++ left ∧ ∀ z, closing? depth (t :: ts ++ z) = some run) ∨
          ∃ inner, (∀ commas, Spot.behind? ⟨commas, depth + 1⟩ (t :: ts) =
              some ⟨commas, inner + 1⟩) ∧
            ∀ z, closing? depth (t :: ts ++ z) = (closing? inner z).map (t :: ts ++ ·) := by
      rcases ih next with ⟨run, left, hts, hclosed⟩ | ⟨inner, hbehind, hopen⟩
      · exact .inl ⟨t :: run, left, by rw [hts]; rfl, fun z => by rw [hread, hclosed]; rfl⟩
      · refine .inr ⟨inner, fun commas => ?_, fun z => ?_⟩
        · rw [Spot.behind?_cons, hspot, Option.bind_some, hbehind]
        · rw [hread, hopen, Option.map_map]
          rfl
    by_cases hopens : t.kind.opens = true
    · exact hcons (fun z => closing?_opens _ hopens depth) fun _ => Spot.next?_opens hopens
    by_cases hcloses : t.kind.closes = true
    · cases depth with
      | zero => exact .inl ⟨[t], ts, rfl, fun z => closing?_zero _ hcloses⟩
      | succ depth =>
        exact hcons (fun z => closing?_succ _ hcloses depth) fun _ => Spot.next?_closes hcloses
    · have hplain := Bool.eq_false_iff.2 hopens
      have hinside := Bool.eq_false_iff.2 hcloses
      exact hcons (fun z => closing?_plain _ hplain hinside depth)
        fun _ => Spot.next?_plain hplain hinside fun h => absurd h (Nat.succ_ne_zero depth)

/-- What a token more makes of a color: nothing, if it stands behind the color, and otherwise it is a
token of the color. -/
theorem color?_insert {c : Token} (hc : c.isTrivia = true) (t : Token) (front back : List Token) :
    (color? t (front ++ back) = none ∧ color? t (front ++ c :: back) = none) ∨
    (∃ run left, front = run ++ left ∧ color? t (front ++ back) = some (t :: run) ∧
      color? t (front ++ c :: back) = some (t :: run)) ∨
    ∃ run rest depth, back = run ++ rest ∧ color? t (front ++ back) = some (t :: front ++ run) ∧
      color? t (front ++ c :: back) = some (t :: front ++ c :: run) ∧
      ∀ commas, Spot.behind? ⟨commas, 0⟩ (t :: front) = some ⟨commas, depth + 1⟩ := by
  have hone (h : ∀ ts, color? t ts = some [t]) :
      ∃ run left, front = run ++ left ∧ color? t (front ++ back) = some (t :: run) ∧
        color? t (front ++ c :: back) = some (t :: run) := ⟨[], front, rfl, h _, h _⟩
  rcases t with ⟨kind, place, text⟩
  cases kind with
  | hash name => exact .inr (.inl (hone fun _ => rfl))
  | idHash name => exact .inr (.inl (hone fun _ => rfl))
  | ident name => exact .inr (.inl (hone fun _ => rfl))
  | function name =>
    by_cases hname : isColorFunction name = true
    · have hread (ts : List Token) : color? ⟨.function name, place, text⟩ ts =
          (closing? 0 ts).map (⟨.function name, place, text⟩ :: ·) := if_pos hname
      simp only [hread]
      rcases closing?_cases 0 front with ⟨run, left, hfront, hclosed⟩ | ⟨inner, hspot, hopen⟩
      · exact .inr (.inl ⟨run, left, hfront, by rw [hclosed]; rfl, by rw [hclosed]; rfl⟩)
      · obtain ⟨hopens, hcloses⟩ := not_opens_of_isTrivia hc
        rw [hopen, hopen, closing?_plain _ hopens hcloses]
        rcases hrun : closing? inner back with _ | run
        · exact .inl ⟨rfl, rfl⟩
        · obtain ⟨rest, hrest⟩ := closing?_isPrefix hrun
          refine .inr (.inr ⟨run, rest, inner, hrest.symm, rfl, rfl, fun commas => ?_⟩)
          rw [Spot.behind?_cons, Spot.next?_opens rfl, Option.bind_some, hspot]
    · have hread (ts : List Token) : color? ⟨.function name, place, text⟩ ts = none := if_neg hname
      exact .inl ⟨hread _, hread _⟩
  | _ => exact .inl ⟨rfl, rfl⟩

/-! ## Color stops -/

/-- The end of a color stop, whether the stop is the last one, and what follows. -/
def ender? (ts : List Token) : Option (Bool × List Token) :=
  (isLast? (Token.headKind (skipTrivia ts))).map fun last => (last, (skipTrivia ts).tail)

/-- What follows the color of a stop: its position and its end. -/
def ending? (ts : List Token) : Option ((Option String × Bool) × List Token) :=
  match position? (skipTrivia ts) with
  | some p => (ender? (skipTrivia ts).tail).map fun r => ((some (written [p]), r.1), r.2)
  | none => (ender? (skipTrivia ts)).map fun r => ((none, r.1), r.2)

/-- A color stop, whether it is the last one, and what follows its end. -/
def nextStop? (ts : List Token) : Option ((ColorStop × Bool) × List Token) :=
  (stop? ts).map fun r => ((r.1, r.2.1), ts.drop r.2.2)

theorem ignores_ender? {c : Token} (hc : c.isTrivia = true) (front back : List Token) :
    Ignores ender? c front back := .of_single hc front back fun _ => rfl

theorem ignores_ending? {c : Token} (hc : c.isTrivia = true) (front back : List Token) :
    Ignores ending? c front back := by
  refine .of_skip hc front back (fun ts => by rw [ending?, ending?, skipTrivia_skipTrivia])
    fun _ t more _ _ ht => ?_
  have hread (z : List Token) : ending? (t :: more ++ z) =
      match position? [t] with
      | some p => (ender? (more ++ z)).map fun r => ((some (written [p]), r.1), r.2)
      | none => (ender? (t :: more ++ z)).map fun r => ((none, r.1), r.2) := by
    rw [ending?, List.cons_append, skipTrivia_of_solid ht]
    rfl
  rcases hposition : position? [t] with _ | p
  · have hender := (ignores_ender? hc (t :: more) back).map fun last => ((none : Option String), last)
    exact hender.behind [] fun z => (hread z).trans (by rw [hposition])
  · have hender := (ignores_ender? hc more back).map fun last => (some (written [p]), last)
    exact hender.behind [t] fun z => (hread z).trans (by rw [hposition])

theorem nextStop?_of_nil {ts : List Token} (hskip : skipTrivia ts = []) : nextStop? ts = none := by
  rw [nextStop?, stop?, hskip]
  rfl

/-- A color stop is a color with its ending. -/
theorem nextStop?_of_color {t : Token} {ts more : List Token} (hskip : skipTrivia ts = t :: more) :
    nextStop? ts = (color? t more).bind fun color =>
      (ending? ((t :: more).drop color.length)).map fun r =>
        ((⟨written color, r.1.1⟩, r.1.2), r.2) := by
  rcases hcolor : color? t more with _ | color
  · simp only [nextStop?, stop?, hskip, hcolor, Option.map_none, Option.bind_none]
  have hrest {behind : List Token} (hbehind : behind <:+ t :: more) (hne : behind ≠ []) :
      ts.drop (ts.length + 1 - behind.length) = behind.tail := by
    obtain ⟨e, rest, rfl⟩ := List.exists_cons_of_ne_nil hne
    obtain ⟨front, hfront⟩ := hbehind.trans (hskip ▸ skipTrivia_suffix ts)
    rw [← hfront, List.length_append, show front.length + (e :: rest).length + 1 -
      (e :: rest).length = front.length + 1 by omega, List.drop_length_add_append]
    rfl
  have hend {behind : List Token} (hbehind : behind <:+ t :: more) (position : Option String) :
      ((isLast? (Token.headKind (skipTrivia behind))).map fun last =>
        ((⟨written color, position⟩ : ColorStop), last,
          ts.length + 1 - (skipTrivia behind).length)).map (fun r => ((r.1, r.2.1), ts.drop r.2.2)) =
      (ender? behind).map fun r => ((⟨written color, position⟩, r.1), r.2) := by
    rw [ender?, Option.map_map, Option.map_map]
    rcases hne : skipTrivia behind with _ | ⟨e, rest⟩
    · rfl
    · rw [← hne]
      have hdrop := hrest ((skipTrivia_suffix behind).trans hbehind) (by rw [hne]; exact List.cons_ne_nil e rest)
      cases isLast? (Token.headKind (skipTrivia behind)) with
      | none => rfl
      | some last => exact congrArg (fun z => some ((_, last), z)) hdrop
  have hbehind : skipTrivia ((t :: more).drop color.length) <:+ t :: more :=
    (skipTrivia_suffix _).trans (List.drop_suffix color.length (t :: more))
  rw [nextStop?, stop?_of_color hskip hcolor, Option.bind_some, ending?]
  dsimp only
  rcases position? (skipTrivia ((t :: more).drop color.length)) with _ | p
  · refine (hend hbehind none).trans ?_
    dsimp only
    rw [Option.map_map]
    rfl
  · refine (hend ((List.tail_suffix _).trans hbehind) (some (written [p]))).trans ?_
    dsimp only
    rw [Option.map_map]
    rfl

theorem stopsFrom_zero (ts : List Token) : stopsFrom 0 ts = (nextStop? ts).bind fun r =>
    if r.1.2 then some [r.1.1] else (stopsFrom 0 r.2).map (r.1.1 :: ·) := by
  cases ts with
  | nil => rfl
  | cons t ts =>
    rw [stopsFrom, nextStop?]
    rcases hread : stop? (t :: ts) with _ | ⟨s, last, width⟩
    · rfl
    · cases last with
      | true => rfl
      | false =>
        obtain ⟨front, gap, e, rest, -, -, -, rfl, -⟩ := stopAt_of_stop? hread
        dsimp only
        rw [stopsFrom_pending]
        rfl

/-- A stop that is not the last one leads behind the next comma. -/
theorem nextStop?_spot {ts rest : List Token} {s : ColorStop}
    (h : nextStop? ts = some ((s, false), rest)) :
    ∃ passed, ts = passed ++ rest ∧
      ∀ commas, Spot.behind? ⟨commas, 0⟩ passed = some ⟨commas + 1, 0⟩ := by
  obtain ⟨⟨s', last, width⟩, hread, heq⟩ := Option.map_eq_some_iff.1 h
  obtain ⟨front, gap, t, rest', hts, hstop, hgap, rfl, hkind⟩ := stopAt_of_stop? hread
  obtain ⟨rfl, rfl⟩ : last = false ∧ rest' = rest := by
    simp only [Prod.mk.injEq, hts] at heq
    refine ⟨heq.1.2, ?_⟩
    rw [← heq.2, List.drop_length_add_append]
    rfl
  refine ⟨front ++ gap ++ [t], by rw [hts]; simp, fun commas => ?_⟩
  have hcomma : t.kind = .comma := hkind
  rw [Spot.behind?_append, Spot.behind?_append, Spot.behind?_stop hstop, Option.bind_some,
    Spot.behind?_trivia hgap, Option.bind_some, Spot.behind?_cons, hcomma]
  rfl

/-- A color stop ignores one more token of trivia, unless the token stands in the arguments of its
color; then it is a part of that color. -/
theorem nextStop?_insert {c : Token} (hc : c.isTrivia = true) (front back : List Token) :
    Ignores nextStop? c front back ∨ ∃ s s' last rest depth,
      nextStop? (front ++ back) = some ((s, last), rest) ∧
      nextStop? (front ++ c :: back) = some ((s', last), rest) ∧ c.text <:+: s'.color.toList ∧
      ∀ commas, Spot.behind? ⟨commas, 0⟩ front = some ⟨commas, depth + 1⟩ := by
  rcases Token.all_or_first Token.isTrivia front with hgap | ⟨gap, t, more, hgap, ht, rfl⟩
  · have hskip := skipTrivia_insert hc back hgap
    refine .inl (.inl ?_)
    rcases hold : skipTrivia (front ++ back) with _ | ⟨t, more⟩
    · rw [nextStop?_of_nil hold, nextStop?_of_nil (hskip.trans hold)]
    · rw [nextStop?_of_color hold, nextStop?_of_color (hskip.trans hold)]
  have hskip (z : List Token) : skipTrivia (gap ++ t :: more ++ z) = t :: (more ++ z) := by
    rw [List.append_assoc, List.cons_append, skipTrivia_gap hgap ht]
  have hold := nextStop?_of_color (hskip back)
  have hnew := nextStop?_of_color (hskip (c :: back))
  rcases color?_insert hc t more back with ⟨hnone, hnone'⟩ |
    ⟨run, left, rfl, hcolor, hcolor'⟩ | ⟨run, rest, depth, rfl, hcolor, hcolor', hspot⟩
  · exact .inl (.inl (by rw [hold, hnew, hnone, hnone']; rfl))
  · -- The token stands behind the color.
    have hdrop (z : List Token) : (t :: (run ++ left ++ z)).drop (t :: run).length = left ++ z := by
      rw [List.append_assoc, ← List.cons_append, List.drop_left]
    rw [hcolor, Option.bind_some, hdrop] at hold
    rw [hcolor', Option.bind_some, hdrop] at hnew
    refine .inl ?_
    rcases ignores_ending? hc left back with hsame | ⟨⟨position, last⟩, passed, left, rfl, hend, hend'⟩
    · exact .inl (by rw [hold, hnew, hsame])
    · exact .inr ⟨(⟨written (t :: run), position⟩, last), gap ++ t :: run ++ passed, left, by simp,
        by rw [hold, hend]; rfl, by rw [hnew, hend']; rfl⟩
  · -- The token is one of the color.
    have hdrop : (t :: (more ++ (run ++ rest))).drop (t :: more ++ run).length = rest := by
      rw [show t :: (more ++ (run ++ rest)) = t :: more ++ run ++ rest by simp, List.drop_left]
    have hdrop' : (t :: (more ++ c :: (run ++ rest))).drop (t :: more ++ c :: run).length = rest := by
      rw [show t :: (more ++ c :: (run ++ rest)) = t :: more ++ c :: run ++ rest by simp,
        List.drop_left]
    rw [hcolor, Option.bind_some, hdrop] at hold
    rw [hcolor', Option.bind_some, hdrop'] at hnew
    rcases hend : ending? rest with _ | ⟨⟨position, last⟩, behind⟩
    · exact .inl (.inl (by rw [hold, hnew, hend]; rfl))
    refine .inr ⟨⟨written (t :: more ++ run), position⟩, ⟨written (t :: more ++ c :: run), position⟩,
      last, behind, depth, by rw [hold, hend]; rfl, by rw [hnew, hend]; rfl, ?_, fun commas => ?_⟩
    · rw [written, String.toList_ofList, Token.source_append, Token.source_cons]
      exact ⟨_, _, List.append_assoc _ _ _⟩
    · rw [Spot.behind?_append, Spot.behind?_trivia hgap, Option.bind_some, hspot]

/-- One more token of trivia changes no color stops, unless it stands in the arguments of a color;
then that color is another one. -/
theorem stopsFrom_insert {c : Token} (hc : c.isTrivia = true) (front back : List Token) :
    stopsFrom 0 (front ++ c :: back) = stopsFrom 0 (front ++ back) ∨
      ∃ stops i s depth, stopsFrom 0 (front ++ back) = some stops ∧ i < stops.length ∧
        stopsFrom 0 (front ++ c :: back) = some (stops.set i s) ∧ c.text <:+: s.color.toList ∧
        ∀ commas, Spot.behind? ⟨commas, 0⟩ front = some ⟨commas + i, depth + 1⟩ := by
  -- The stops in front of the one that the token stands in are left as they are.
  induction hl : front.length using Nat.strongRecOn generalizing front with
  | ind l ih =>
    rw [stopsFrom_zero, stopsFrom_zero]
    rcases nextStop?_insert hc front back with
      (hsame | ⟨⟨s, last⟩, passed, left, rfl, hold, hnew⟩) |
      ⟨s, s', last, rest, depth, hold, hnew, htext, hspot⟩
    · exact .inl (by rw [hsame])
    · rw [hold, hnew]
      cases last with
      | true => exact .inl rfl
      | false =>
        obtain ⟨before, hbefore, hspot⟩ := nextStop?_spot hold
        rw [← List.append_assoc before, List.append_cancel_right_eq] at hbefore
        have hpos : 0 < before.length := by
          rw [List.length_pos_iff]
          rintro rfl
          exact absurd (hspot 0) (by simp)
        have hless : left.length < l := by
          rw [← hl, hbefore, List.length_append]
          omega
        simp only [Option.bind_some, Bool.false_eq_true, if_false]
        rcases ih _ hless left rfl with hrest | ⟨stops, i, s', depth, hstops, hi, hset, htext, hinner⟩
        · exact .inl (by rw [hrest])
        · refine .inr ⟨s :: stops, i + 1, s', depth, by rw [hstops]; rfl, Nat.succ_lt_succ hi,
            by rw [hset]; rfl, htext, fun commas => ?_⟩
          rw [hbefore, Spot.behind?_append, hspot, Option.bind_some, hinner, Nat.add_assoc,
            Nat.add_comm 1]
    · rw [hold, hnew]
      cases last with
      | true => exact .inr ⟨[s], 0, s', depth, rfl, Nat.one_pos, rfl, htext, hspot⟩
      | false =>
        simp only [Option.bind_some, Bool.false_eq_true, if_false]
        rcases stopsFrom 0 rest with _ | others
        · exact .inl rfl
        · exact .inr ⟨s :: others, 0, s', depth, rfl, Nat.succ_pos _, rfl, htext, hspot⟩

/-! ## The whole gradient -/

/-- The tokens lead up to the word `to` of the heading. -/
def BehindTo (ts : List Token) : Prop :=
  ∃ gap t line, Token.AllTrivia gap ∧ t.isTrivia = false ∧ ts = gap ++ t :: line ∧ EndsWithTo line

/-- The tokens lead into the arguments of a color, that of the stop with the number `i`. -/
def InColor (h : Heading Float) (i : Nat) (ts : List Token) : Prop :=
  ∃ gap t inner depth, Token.AllTrivia gap ∧ t.isTrivia = false ∧ ts = gap ++ t :: inner ∧
    Spot.behind? ⟨0, 0⟩ inner = some ⟨h.commas + i, depth + 1⟩

/-- A word that a side follows is a color without a comma behind it. -/
theorem stopsFrom_of_to {t u : Token} {ts more rest : List Token} {s : Side}
    (hword : t.kind.isIdentNamed "to" = true) (hside : side? u.kind = some s)
    (hfirst : skipTrivia ts = t :: more) (hnext : skipTrivia more = u :: rest) :
    stopsFrom 0 ts = none := by
  have hcolor : color? t more = some [t] := by
    rcases t with ⟨kind, place, text⟩
    cases kind <;> first | rfl | exact absurd hword Bool.false_ne_true
  have hending : ending? more = none := by
    rw [ending?, hnext]
    rcases u with ⟨kind, place, text⟩
    cases kind <;> first | rfl | exact absurd hside.symm (Option.some_ne_none s)
  rw [stopsFrom_zero, nextStop?_of_color hfirst, hcolor, Option.bind_some, List.length_singleton,
    List.drop_succ_cons, List.drop_zero, hending]
  rfl

/-- Without whitespace behind the word `to` there is no heading, and where there was one there are
no color stops either. -/
theorem readHeading_insert_to {c : Token} (hc : c.isTrivia = true) (hblank : c.isWhitespace = false)
    {front : List Token} (hto : EndsWithTo front) (back : List Token) :
    readHeading (front ++ c :: back) = (.none, front ++ c :: back) ∧
      (readHeading (front ++ back) = (.none, front ++ back) ∨
        (∃ sides, (readHeading (front ++ back)).1 = .corner sides true) ∧
          stopsFrom 0 (front ++ c :: back) = none) := by
  obtain ⟨gap, t, hgap, hword, rfl⟩ := hto
  have hskip (z : List Token) : skipTrivia (gap ++ [t] ++ z) = t :: z := by
    rw [List.append_assoc, List.singleton_append, skipTrivia_gap hgap (isTrivia_of_to hword)]
  have hline (z : List Token) : line? (gap ++ [t] ++ z) =
      if (Token.headKind z).isWhitespace then (sides? z).map fun r => (.corner r.1 true, r.2)
      else none := by
    rw [line?, hskip, Token.headKind, angle?_of_to hword]
    exact if_pos hword
  have hnew : line? (gap ++ [t] ++ c :: back) = none := by
    rw [hline, if_neg]
    exact fun hwhite => Bool.false_ne_true (hblank.symm.trans hwhite)
  refine ⟨by rw [readHeading, hnew], ?_⟩
  rcases hold : line? (gap ++ [t] ++ back) with _ | ⟨h, rest⟩
  · exact .inl (by rw [readHeading, hold])
  by_cases hcomma : (Token.headKind (skipTrivia rest) == .comma) = true
  · right
    rw [readHeading_of_line? hold, if_pos hcomma]
    rw [hline] at hold
    split at hold
    · obtain ⟨⟨sides, rest'⟩, hsides, heq⟩ := Option.map_eq_some_iff.1 hold
      obtain ⟨rfl, rfl⟩ := Prod.mk.inj heq
      refine ⟨⟨sides, rfl⟩, ?_⟩
      obtain ⟨between, front, hbetween, hfront, rfl⟩ := sidesAt_of_sides? hsides
      obtain ⟨u, s, more, rfl, hside⟩ := sidesAt_head hfront
      have hnext : skipTrivia (c :: (between ++ (u :: more ++ rest'))) = u :: (more ++ rest') :=
        skipTrivia_gap (List.forall_mem_cons.2 ⟨hc, hbetween⟩) (isTrivia_of_side? hside) _
      exact stopsFrom_of_to hword hside (hskip _) hnext
    · exact absurd hold.symm (Option.some_ne_none _)
  · exact .inl (by rw [readHeading_of_line? hold, if_neg hcomma])

/-- The gradient with the heading and the color stops at the front of the tokens. -/
def withHeading? (h : Heading Float) (ts : List Token) : Option (Gradient Float) :=
  (stopsFrom 0 ts).bind fun stops => if stops.length < 2 then none else some ⟨h, stops⟩

theorem heading_of_withHeading? {h : Heading Float} {ts : List Token} {g : Gradient Float}
    (hg : withHeading? h ts = some g) : g.heading = h := by
  obtain ⟨stops, -, hstops⟩ := Option.bind_eq_some_iff.1 hg
  split at hstops
  · exact absurd hstops nofun
  · cases hstops
    rfl

theorem withHeading?_insert {c : Token} (hc : c.isTrivia = true) (h : Heading Float)
    (front back : List Token) :
    withHeading? h (front ++ c :: back) = withHeading? h (front ++ back) ∨
      ∃ g i s depth, withHeading? h (front ++ back) = some g ∧ g.heading = h ∧ i < g.stops.length ∧
        withHeading? h (front ++ c :: back) = some ⟨h, g.stops.set i s⟩ ∧
        c.text <:+: s.color.toList ∧
        ∀ commas, Spot.behind? ⟨commas, 0⟩ front = some ⟨commas + i, depth + 1⟩ := by
  rcases stopsFrom_insert hc front back with
    hsame | ⟨stops, i, s, depth, hold, hi, hnew, htext, hspot⟩
  · exact .inl (by rw [withHeading?, withHeading?, hsame])
  · have hnew' : withHeading? h (front ++ c :: back) =
        if stops.length < 2 then none else some ⟨h, stops.set i s⟩ := by
      rw [withHeading?, hnew, Option.bind_some, List.length_set]
    have hold' : withHeading? h (front ++ back) =
        if stops.length < 2 then none else some ⟨h, stops⟩ := by
      rw [withHeading?, hold, Option.bind_some]
    by_cases hfew : stops.length < 2
    · exact .inl (by rw [hold', hnew', if_pos hfew, if_pos hfew])
    · exact .inr ⟨⟨h, stops⟩, i, s, depth, by rw [hold', if_neg hfew], rfl, hi,
        by rw [hnew', if_neg hfew], htext, hspot⟩

/-- The first token behind trivia has to open a gradient, whose heading and stops are read then. -/
theorem ofTokens?_start {gap line : List Token} {t : Token} (hgap : Token.AllTrivia gap)
    (ht : t.isTrivia = false) (z : List Token) :
    ofTokens? (gap ++ t :: line ++ z) =
      if opensGradient t.kind = true then
        withHeading? (readHeading (line ++ z)).1 (readHeading (line ++ z)).2
      else none := by
  rw [List.append_assoc, List.cons_append]
  exact ofTokens?_of_skip (skipTrivia_gap hgap ht (line ++ z))

theorem ofTokens?_opens {gap line : List Token} {t : Token} (hgap : Token.AllTrivia gap)
    (ht : t.isTrivia = false) (hopens : opensGradient t.kind = true) (z : List Token) :
    ofTokens? (gap ++ t :: line ++ z) =
      withHeading? (readHeading (line ++ z)).1 (readHeading (line ++ z)).2 :=
  (ofTokens?_start hgap ht z).trans (if_pos hopens)

/-- Behind a heading that is read in the same way, one more token of trivia changes at most a color. -/
theorem ofTokens?_insert_behind {c t : Token} (hc : c.isTrivia = true)
    {gap line back passed left : List Token} {h : Heading Float} (hgap : Token.AllTrivia gap)
    (ht : t.isTrivia = false) (hopens : opensGradient t.kind = true) (hline : line = passed ++ left)
    (hold : readHeading (line ++ back) = (h, left ++ back))
    (hnew : readHeading (line ++ c :: back) = (h, left ++ c :: back)) :
    ofTokens? (gap ++ t :: line ++ c :: back) = ofTokens? (gap ++ t :: line ++ back) ∨
      ∃ g i s, ofTokens? (gap ++ t :: line ++ back) = some g ∧ i < g.stops.length ∧
        ofTokens? (gap ++ t :: line ++ c :: back) = some ⟨g.heading, g.stops.set i s⟩ ∧
        c.text <:+: s.color.toList ∧ InColor g.heading i (gap ++ t :: line) := by
  obtain ⟨before, hbefore, hspot⟩ := readHeading_spot (line ++ back)
  rw [hold, hline, ← List.append_assoc, List.append_cancel_right_eq,
    List.append_cancel_right_eq] at hbefore
  rw [hold, ← hbefore] at hspot
  rw [ofTokens?_opens hgap ht hopens, ofTokens?_opens hgap ht hopens, hold, hnew]
  rcases withHeading?_insert hc h left back with
    hsame | ⟨g, i, s, depth, hg, hheading, hi, hset, htext, hinner⟩
  · exact .inl hsame
  · refine .inr ⟨g, i, s, hg, hi, by rw [hheading]; exact hset, htext, gap, t, line, depth, hgap, ht,
      rfl, ?_⟩
    rw [hline, Spot.behind?_append, hspot, hheading]
    exact hinner _

/-- One more token of trivia makes no difference to a gradient, unless it takes the place of the
whitespace behind the word `to` or is put into the arguments of a color. -/
theorem ofTokens?_insert {c : Token} (hc : c.isTrivia = true) (hblank : c.isWhitespace = false)
    {front back : List Token}
    (hto : ∀ g sides, ofTokens? (front ++ back) = some g → g.heading = .corner sides true →
      ¬BehindTo front) :
    ofTokens? (front ++ c :: back) = ofTokens? (front ++ back) ∨
      ∃ g i s, ofTokens? (front ++ back) = some g ∧ i < g.stops.length ∧
        ofTokens? (front ++ c :: back) = some ⟨g.heading, g.stops.set i s⟩ ∧
        c.text <:+: s.color.toList ∧ InColor g.heading i front := by
  rcases Token.all_or_first Token.isTrivia front with hgap | ⟨gap, t, line, hgap, ht, rfl⟩
  · have hskip := skipTrivia_insert hc back hgap
    left
    rcases hold : skipTrivia (front ++ back) with _ | ⟨t, line⟩
    · rw [ofTokens?, ofTokens?, hskip, hold]
    · rw [ofTokens?_of_skip hold, ofTokens?_of_skip (hskip.trans hold)]
  by_cases hopens : opensGradient t.kind = true
  · by_cases hend : EndsWithTo line
    · obtain ⟨hnew, hold | ⟨⟨sides, hcorner⟩, hnone⟩⟩ := readHeading_insert_to hc hblank hend back
      · exact ofTokens?_insert_behind hc hgap ht hopens (List.nil_append line).symm hold hnew
      · -- Where there was a heading, there was no gradient.
        rcases hg : ofTokens? (gap ++ t :: line ++ back) with _ | g
        · left
          rw [ofTokens?_opens hgap ht hopens, hnew, withHeading?, hnone]
          rfl
        · have hheading := heading_of_withHeading? ((ofTokens?_opens hgap ht hopens back).symm.trans hg)
          exact absurd ⟨gap, t, line, hgap, ht, rfl, hend⟩
            (hto g sides hg (hheading.trans hcorner))
    · rcases ignores_readHeading hc line back hend with hsame | ⟨h, passed, left, hline, hold, hnew⟩
      · exact .inl (by
          rw [ofTokens?_opens hgap ht hopens, ofTokens?_opens hgap ht hopens, Option.some_inj.1 hsame])
      · exact ofTokens?_insert_behind hc hgap ht hopens hline (Option.some_inj.1 hold)
          (Option.some_inj.1 hnew)
  · left
    rw [ofTokens?_start hgap ht, ofTokens?_start hgap ht, if_neg hopens, if_neg hopens]

end Gradient
end GradientFallback
