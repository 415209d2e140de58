import GradientFallback.Proofs.Gradient.Grammar
import Mathlib.Data.List.TakeWhile

/-! # Gradients are read by their grammar

A text is read as a gradient exactly if its tokens start with one, and the gradient is the one that
they derive.
-/
namespace GradientFallback
namespace Gradient

/-! ## Trivia -/

theorem skipTrivia_append {gap : List Token} (h : Token.AllTrivia gap) (ts : List Token) :
    skipTrivia (gap ++ ts) = skipTrivia ts := List.dropWhile_append_of_pos h

theorem skipTrivia_of_solid {t : Token} (h : t.isTrivia = false) (ts : List Token) :
    skipTrivia (t :: ts) = t :: ts :=
  List.dropWhile_cons_of_neg (by rw [h]; exact Bool.false_ne_true)

/-- Trivia is passed up to the first token that is none. -/
theorem skipTrivia_gap {gap : List Token} (h : Token.AllTrivia gap) {t : Token}
    (ht : t.isTrivia = false) (ts : List Token) : skipTrivia (gap ++ t :: ts) = t :: ts := by
  rw [skipTrivia_append h, skipTrivia_of_solid ht]

theorem exists_gap (ts : List Token) :
    ∃ gap, Token.AllTrivia gap ∧ ts = gap ++ skipTrivia ts ∧
      ∀ t ∈ (skipTrivia ts).head?, t.isTrivia = false := by
  refine ⟨ts.takeWhile Token.isTrivia, fun t => List.mem_takeWhile_imp, ?_, fun t ht => ?_⟩
  · exact (List.takeWhile_append_dropWhile).symm
  · have hnot := List.head?_dropWhile_not Token.isTrivia ts
    rw [show (ts.dropWhile Token.isTrivia).head? = some t from ht] at hnot
    exact hnot

theorem isTrivia_of_comma {t : Token} (h : t.kind = .comma) : t.isTrivia = false := by
  rw [Token.isTrivia, h]
  rfl

/-! ## What is opened is closed -/

theorem not_opens_of_closes {k : TokenKind} (h : k.closes = true) : k.opens = false := by
  cases k <;> simp_all [TokenKind.opens, TokenKind.closes]

section Closing

variable {t : Token} (ts : List Token)

theorem closing?_opens (h : t.kind.opens = true) (depth : Nat) :
    closing? depth (t :: ts) = (closing? (depth + 1) ts).map (t :: ·) := by
  rw [closing?.eq_def]
  simp [h]

theorem closing?_plain (hopens : t.kind.opens = false) (hcloses : t.kind.closes = false)
    (depth : Nat) : closing? depth (t :: ts) = (closing? depth ts).map (t :: ·) := by
  rw [closing?.eq_def]
  simp [hopens, hcloses]

theorem closing?_zero (h : t.kind.closes = true) : closing? 0 (t :: ts) = some [t] := by
  rw [closing?.eq_def]
  simp [h, not_opens_of_closes h]

theorem closing?_succ (h : t.kind.closes = true) (depth : Nat) :
    closing? (depth + 1) (t :: ts) = (closing? depth ts).map (t :: ·) := by
  rw [closing?.eq_def]
  simp [h, not_opens_of_closes h]

end Closing

/-- Balanced tokens are passed at any depth. -/
theorem closing?_append {inner : List Token} (h : Balanced inner) (depth : Nat)
    (ts : List Token) :
    closing? depth (inner ++ ts) = (closing? depth ts).map (inner ++ ·) := by
  induction h generalizing depth ts with
  | nil => cases h : closing? depth ts <;> simp [h]
  | @plain t inner opens closes rest ih =>
    rw [List.cons_append, closing?_plain _ opens closes, ih, Option.map_map]
    rfl
  | @group t close inner inner' opens inside closes rest ihInside ihRest =>
    rw [List.append_assoc, List.cons_append, List.cons_append, closing?_opens _ opens, ihInside,
      closing?_succ _ closes, ihRest]
    cases closing? depth ts <;> simp

/-- What is closed at a depth is balanced up to the first closing token outside. -/
theorem balanced_of_closing? {depth : Nat} {ts run : List Token}
    (h : closing? depth ts = some run) :
    ∃ inner close rest, Balanced inner ∧ close.kind.closes = true ∧ ts = inner ++ close :: rest ∧
      (depth = 0 → run = inner ++ [close]) ∧
      ∀ d, depth = d + 1 → ∃ more, closing? d rest = some more ∧ run = inner ++ close :: more := by
  -- An opening token takes two steps: up to its own end, and from there on.
  induction hl : ts.length using Nat.strongRecOn generalizing depth ts run with
  | ind l ih =>
    cases ts with
    | nil => exact absurd h nofun
    | cons t ts =>
      rw [List.length_cons] at hl
      by_cases hopens : t.kind.opens = true
      · rw [closing?_opens ts hopens, Option.map_eq_some_iff] at h
        obtain ⟨run, hrun, rfl⟩ := h
        obtain ⟨inner, close, rest, hinner, hclose, rfl, -, hmore⟩ := ih _ (by omega) hrun rfl
        obtain ⟨more, hrest, rfl⟩ := hmore depth rfl
        rw [List.length_append, List.length_cons] at hl
        obtain ⟨inner', close', rest', hinner', hclose', rfl, hzero, hsucc⟩ :=
          ih _ (by omega) hrest rfl
        refine ⟨t :: inner ++ close :: inner', close', rest', .group hopens hinner hclose hinner',
          hclose', by simp, fun hd => ?_, fun d hd => ?_⟩
        · rw [hzero hd]
          simp
        · obtain ⟨more', hmore', hrun⟩ := hsucc d hd
          exact ⟨more', hmore', by rw [hrun]; simp⟩
      · by_cases hcloses : t.kind.closes = true
        · refine ⟨[], t, ts, .nil, hcloses, rfl, ?_, ?_⟩
          · rintro rfl
            rw [closing?_zero ts hcloses, Option.some.injEq] at h
            exact h.symm
          · rintro d rfl
            rw [closing?_succ ts hcloses, Option.map_eq_some_iff] at h
            obtain ⟨more, hmore, rfl⟩ := h
            exact ⟨more, hmore, rfl⟩
        · have hplain := Bool.eq_false_iff.2 hopens
          have hinside := Bool.eq_false_iff.2 hcloses
          rw [closing?_plain ts hplain hinside, Option.map_eq_some_iff] at h
          obtain ⟨run, hrun, rfl⟩ := h
          obtain ⟨inner, close, rest, hinner, hclose, rfl, hzero, hsucc⟩ := ih _ (by omega) hrun rfl
          refine ⟨t :: inner, close, rest, .plain hplain hinside hinner, hclose, rfl,
            fun hd => ?_, fun d hd => ?_⟩
          · rw [hzero hd]
            rfl
          · obtain ⟨more, hmore, hrun⟩ := hsucc d hd
            exact ⟨more, hmore, by rw [hrun]; rfl⟩

/-! ## Color stops -/

theorem color?_append {color : List Token} (h : ColorAt color) (rest : List Token) :
    ∃ t more, color = t :: more ∧ t.isTrivia = false ∧
      color? t (more ++ rest) = some color := by
  cases h with
  | @hash t name kind => exact ⟨t, [], rfl, by rw [Token.isTrivia, kind]; rfl, by simp [color?, kind]⟩
  | @idHash t name kind =>
    exact ⟨t, [], rfl, by rw [Token.isTrivia, kind]; rfl, by simp [color?, kind]⟩
  | @ident t name kind =>
    exact ⟨t, [], rfl, by rw [Token.isTrivia, kind]; rfl, by simp [color?, kind]⟩
  | @function t close name inner kind isColor inside closes =>
    refine ⟨t, inner ++ [close], rfl, by rw [Token.isTrivia, kind]; rfl, ?_⟩
    simp only [color?, kind, isColor, if_true]
    rw [List.append_assoc, closing?_append inside, List.singleton_append, closing?_zero _ closes]
    rfl

theorem colorAt_of_color? {t : Token} {ts color : List Token} (h : color? t ts = some color) :
    ColorAt color ∧ ∃ rest, t :: ts = color ++ rest := by
  unfold color? at h
  split at h
  · next hkind =>
    cases h
    exact ⟨.hash hkind, ts, rfl⟩
  · next hkind =>
    cases h
    exact ⟨.idHash hkind, ts, rfl⟩
  · next hkind =>
    cases h
    exact ⟨.ident hkind, ts, rfl⟩
  · next name hkind =>
    split at h
    · next hcolor =>
      rw [Option.map_eq_some_iff] at h
      obtain ⟨run, hrun, rfl⟩ := h
      obtain ⟨inner, close, rest, hinner, hclose, rfl, hzero, -⟩ := balanced_of_closing? hrun
      rw [hzero rfl]
      exact ⟨.function hkind hcolor hinner hclose, rest, by simp⟩
    · exact absurd h nofun
  · exact absurd h nofun

theorem position?_of_isPosition {t : Token} (h : IsPosition t.kind) (ts : List Token) :
    position? (t :: ts) = some t := by
  rcases t with ⟨kind, location, text⟩
  cases kind <;> first | rfl | exact absurd h nofun

theorem isPosition_of_position? {t : Token} {ts : List Token} (h : position? ts = some t) :
    IsPosition t.kind ∧ ∃ more, ts = t :: more := by
  unfold position? at h
  split at h
  · next u more =>
    split at h <;> cases h
    · next value hkind => exact ⟨hkind ▸ .number value, more, rfl⟩
    · next value hkind => exact ⟨hkind ▸ .percentage value, more, rfl⟩
    · next value unit hkind => exact ⟨hkind ▸ .dimension value unit, more, rfl⟩
  · exact absurd h nofun

theorem isTrivia_of_isPosition {t : Token} (h : IsPosition t.kind) : t.isTrivia = false := by
  rcases t with ⟨kind, location, text⟩
  cases kind <;> first | rfl | exact absurd h nofun

/-- What ends a color stop. -/
def EndsStop (t : Token) : Prop := t.kind = .comma ∨ t.kind = .rightParen

theorem isTrivia_of_endsStop {t : Token} (h : EndsStop t) : t.isTrivia = false := by
  rcases h with h | h <;> (rw [Token.isTrivia, h]; rfl)

theorem position?_of_endsStop {t : Token} (h : EndsStop t) (ts : List Token) :
    position? (t :: ts) = none := by
  rcases h with h | h <;> simp [position?, h]

/-- Behind a color comes a position or what ends the stop. -/
theorem stop?_color {gap color : List Token} (hgap : Token.AllTrivia gap) (hcolor : ColorAt color)
    (behind : List Token) :
    stop? (gap ++ (color ++ behind)) =
      let behindColor := skipTrivia behind
      let position := position? behindColor
      let after := skipTrivia (if position.isSome then behindColor.tail else behindColor)
      let stop : ColorStop := ⟨written color, position.map fun p => written [p]⟩
      let width := (gap ++ (color ++ behind)).length + 1 - after.length
      match Token.headKind after with
      | .comma => some (stop, false, width)
      | .rightParen => some (stop, true, width)
      | _ => none := by
  obtain ⟨t, more, rfl, ht, hread⟩ := color?_append hcolor behind
  have hskip : skipTrivia (gap ++ (t :: more ++ behind)) = t :: (more ++ behind) :=
    skipTrivia_gap hgap ht _
  rw [stop?, hskip]
  dsimp only
  rw [hread, ← List.cons_append]
  have hafter : (t :: more ++ behind).drop (t :: more).length = behind := List.drop_left
  dsimp only
  exact hafter.symm ▸ rfl

/-- A color stop and what ends it are read as they are written. -/
theorem stop?_of_stopAt {ts gap rest : List Token} {t : Token} {s : ColorStop} (h : StopAt ts s)
    (hgap : Token.AllTrivia gap) (ht : EndsStop t) :
    stop? (ts ++ gap ++ t :: rest) =
      some (s, decide (t.kind = .rightParen), (ts ++ gap).length + 1) := by
  cases h with
  | @color gap' color trivia at_color =>
    have hskip : skipTrivia (gap ++ t :: rest) = t :: rest :=
      skipTrivia_gap hgap (isTrivia_of_endsStop ht) rest
    rw [List.append_assoc, List.append_assoc, stop?_color trivia at_color]
    dsimp only
    rw [hskip, position?_of_endsStop ht, Option.isSome_none, if_neg Bool.false_ne_true,
      skipTrivia_of_solid (isTrivia_of_endsStop ht)]
    rcases ht with ht | ht <;> simp [Token.headKind, ht] <;> omega
  | @placed gap' color gap'' p trivia at_color trivia' position =>
    have hbehind : skipTrivia (gap'' ++ p :: (gap ++ t :: rest)) = p :: (gap ++ t :: rest) :=
      skipTrivia_gap trivia' (isTrivia_of_isPosition position) _
    have hskip : skipTrivia (gap ++ t :: rest) = t :: rest :=
      skipTrivia_gap hgap (isTrivia_of_endsStop ht) rest
    have hparts : gap' ++ color ++ gap'' ++ [p] ++ gap ++ t :: rest =
        gap' ++ (color ++ (gap'' ++ p :: (gap ++ t :: rest))) := by simp
    rw [hparts, stop?_color trivia at_color]
    dsimp only
    rw [hbehind, position?_of_isPosition position, Option.isSome_some, if_pos rfl, List.tail_cons,
      hskip]
    rcases ht with ht | ht <;> simp [Token.headKind, ht] <;> omega

theorem endsStop_of_headKind {ts : List Token} {s s' : ColorStop} {last : Bool} {n width : Nat}
    (h : (match Token.headKind ts with
      | .comma => some (s, false, n)
      | .rightParen => some (s, true, n)
      | _ => none) = some (s', last, width)) :
    s = s' ∧ n = width ∧ ∃ t rest, ts = t :: rest ∧
      t.kind = if last then .rightParen else .comma := by
  cases ts with
  | nil => exact absurd h nofun
  | cons t rest =>
    simp only [Token.headKind] at h
    split at h
    · next hkind =>
      cases h
      exact ⟨rfl, rfl, t, rest, rfl, hkind⟩
    · next hkind =>
      cases h
      exact ⟨rfl, rfl, t, rest, rfl, hkind⟩
    · exact absurd h nofun

/-- A stop that is read is written as one, with a comma or the closing parenthesis behind it. -/
theorem stopAt_of_stop? {ts : List Token} {s : ColorStop} {last : Bool} {width : Nat}
    (h : stop? ts = some (s, last, width)) :
    ∃ front gap t rest, ts = front ++ gap ++ t :: rest ∧ StopAt front s ∧ Token.AllTrivia gap ∧
      width = (front ++ gap).length + 1 ∧ t.kind = if last then .rightParen else .comma := by
  obtain ⟨gap, hgap, hts, -⟩ := exists_gap ts
  rcases hskip : skipTrivia ts with _ | ⟨t, more⟩
  · rw [stop?, hskip] at h
    exact absurd h nofun
  rcases hread : color? t more with _ | color
  · simp only [stop?, hskip, hread] at h
    exact absurd h nofun
  obtain ⟨hcolor, behind, hbehind⟩ := colorAt_of_color? hread
  rw [hskip, hbehind] at hts
  rw [hts, stop?_color hgap hcolor] at h
  obtain ⟨gap', hgap', hbehindColor, hfirst⟩ := exists_gap behind
  rcases hposition : position? (skipTrivia behind) with _ | p
  · have hagain : skipTrivia (skipTrivia behind) = skipTrivia behind := by
      cases hs : skipTrivia behind with
      | nil => rfl
      | cons u us => exact skipTrivia_of_solid (hfirst u (by rw [hs]; rfl)) us
    dsimp only at h
    rw [hposition, Option.isSome_none, if_neg Bool.false_ne_true, hagain] at h
    obtain ⟨rfl, rfl, e, rest, hrest, he⟩ := endsStop_of_headKind h
    rw [hrest] at hbehindColor
    refine ⟨gap ++ color, gap', e, rest, by rw [hts, hbehindColor]; simp, .color hgap hcolor, hgap',
      ?_, he⟩
    rw [hrest, hbehindColor]
    simp only [List.length_append, List.length_cons]
    omega
  · obtain ⟨hp, more', hmore⟩ := isPosition_of_position? hposition
    obtain ⟨gap'', hgap'', hbehindPosition, -⟩ := exists_gap more'
    dsimp only at h
    rw [hposition, Option.isSome_some, if_pos rfl, hmore, List.tail_cons] at h
    obtain ⟨rfl, rfl, e, rest, hrest, he⟩ := endsStop_of_headKind h
    rw [hrest] at hbehindPosition
    rw [hmore, hbehindPosition] at hbehindColor
    refine ⟨gap ++ color ++ gap' ++ [p], gap'', e, rest, by rw [hts, hbehindColor]; simp,
      .placed hgap hcolor hgap' hp, hgap'', ?_, he⟩
    rw [hrest, hbehindColor]
    simp only [List.length_append, List.length_cons, List.length_nil]
    omega

theorem stopAt_ne_nil {ts : List Token} {s : ColorStop} (h : StopAt ts s) : ts ≠ [] := by
  have hcolor {color : List Token} (hc : ColorAt color) : color ≠ [] := by
    cases hc <;> exact nofun
  cases h with
  | color _ at_color => simp [hcolor at_color]
  | placed => simp

theorem stopsFrom_pending (n : Nat) (ts : List Token) :
    stopsFrom n ts = stopsFrom 0 (ts.drop n) := by
  induction ts generalizing n with
  | nil => cases n <;> rfl
  | cons t ts ih =>
    cases n with
    | zero => rfl
    | succ n => exact ih n

/-- Reading goes on behind the comma of a stop and ends behind the closing parenthesis. -/
theorem stopsFrom_stop {front gap : List Token} {t : Token} {s : ColorStop} (h : StopAt front s)
    (hgap : Token.AllTrivia gap) (ht : EndsStop t) (rest : List Token) :
    stopsFrom 0 (front ++ gap ++ t :: rest) =
      if t.kind = .rightParen then some [s] else (stopsFrom 0 rest).map (s :: ·) := by
  obtain ⟨u, us, rfl⟩ := List.exists_cons_of_ne_nil (stopAt_ne_nil h)
  have hread : stop? (u :: (us ++ gap ++ t :: rest)) =
      some (s, decide (t.kind = .rightParen), (us ++ gap).length + 1 + 1) :=
    stop?_of_stopAt h hgap ht
  have hdrop : (us ++ gap ++ t :: rest).drop ((us ++ gap).length + 1) = rest := by
    rw [← List.drop_drop, List.drop_left]
    rfl
  rw [List.cons_append, List.cons_append, stopsFrom, hread]
  by_cases hparen : t.kind = .rightParen
  · simp [hparen]
  · rw [decide_eq_false hparen, if_neg hparen]
    dsimp only
    rw [Nat.add_sub_cancel, stopsFrom_pending, hdrop]

theorem stopsFrom_of_stopsAt {ts : List Token} {ss : List ColorStop} (h : StopsAt ts ss)
    (rest : List Token) : stopsFrom 0 (ts ++ rest) = some ss := by
  induction h with
  | @last ts gap close s stop trivia kind =>
    rw [List.append_assoc, List.singleton_append, stopsFrom_stop stop trivia (.inr kind),
      if_pos kind]
  | @more ts gap more comma s others stop trivia kind stops ih =>
    rw [List.append_assoc, List.cons_append, stopsFrom_stop stop trivia (.inl kind), ih,
      if_neg (by rw [kind]; exact nofun)]
    rfl

theorem stopsAt_of_stopsFrom {ts : List Token} {ss : List ColorStop}
    (h : stopsFrom 0 ts = some ss) : ∃ front rest, ts = front ++ rest ∧ StopsAt front ss := by
  induction hl : ts.length using Nat.strongRecOn generalizing ts ss with
  | ind l ih =>
    cases ts with
    | nil => exact absurd h nofun
    | cons t ts =>
      rcases hread : stop? (t :: ts) with _ | ⟨s, last, width⟩
      · rw [stopsFrom, hread] at h
        exact absurd h nofun
      obtain ⟨front, gap, e, rest, hts, hstop, hgap, -, he⟩ := stopAt_of_stop? hread
      have hends : EndsStop e := by
        rw [EndsStop, he]
        cases last <;> simp
      rw [hts, stopsFrom_stop hstop hgap hends] at h
      cases last with
      | true =>
        have hparen : e.kind = .rightParen := he
        rw [if_pos hparen] at h
        cases h
        exact ⟨front ++ gap ++ [e], rest, by rw [hts]; simp, .last hstop hgap hparen⟩
      | false =>
        have hcomma : e.kind = .comma := he
        rw [if_neg (by rw [hcomma]; exact nofun), Option.map_eq_some_iff] at h
        obtain ⟨others, hothers, rfl⟩ := h
        have hshort : rest.length < l := by
          rw [← hl, hts, List.length_append, List.length_cons]
          omega
        obtain ⟨front', rest', rfl, hstops⟩ := ih _ hshort hothers rfl
        exact ⟨front ++ gap ++ e :: front', rest', by rw [hts]; simp, .more hstop hgap hcomma hstops⟩

/-! ## Gradient lines -/

theorem side?_of_to {k : TokenKind} (h : k.isIdentNamed "to" = true) : side? k = none := by
  cases k with
  | ident name =>
    have hname : lowerCase name = "to" := eq_of_beq h
    rw [side?, Side.ofName?, hname]
    rfl
  | _ => rfl

theorem isTrivia_of_side? {t : Token} {s : Side} (h : side? t.kind = some s) :
    t.isTrivia = false := by
  rcases t with ⟨kind, location, text⟩
  cases kind <;> first | rfl | exact absurd h nofun

theorem nextSide?_gap {gap : List Token} (hgap : Token.AllTrivia gap) {t : Token} {s : Side}
    (h : side? t.kind = some s) (rest : List Token) :
    nextSide? (gap ++ t :: rest) = some (s, rest) := by
  rw [nextSide?, skipTrivia_gap hgap (isTrivia_of_side? h)]
  simp [h]

theorem nextSide?_comma {gap : List Token} (hgap : Token.AllTrivia gap) {t : Token}
    (h : t.kind = .comma) (rest : List Token) : nextSide? (gap ++ t :: rest) = none := by
  rw [nextSide?, skipTrivia_gap hgap (isTrivia_of_comma h)]
  simp [h, side?]

/-- Sides with a comma behind them are read as they are written. -/
theorem sides?_of_sidesAt {gap ts gap' : List Token} {comma : Token} {sides : List Side}
    (hgap : Token.AllTrivia gap) (h : SidesAt ts sides) (hgap' : Token.AllTrivia gap')
    (hcomma : comma.kind = .comma) (rest : List Token) :
    sides? (gap ++ (ts ++ (gap' ++ comma :: rest))) = some (sides, gap' ++ comma :: rest) := by
  cases h with
  | @one t s side =>
    rw [List.singleton_append, sides?, nextSide?_gap hgap side]
    dsimp only
    rw [nextSide?_comma hgap' hcomma]
  | @two t t' s s' between side trivia side' axes =>
    rw [List.append_assoc, List.cons_append, List.singleton_append, sides?, nextSide?_gap hgap side]
    dsimp only
    rw [nextSide?_gap trivia side']
    dsimp only
    rw [if_neg axes]

theorem exists_of_nextSide? {ts rest : List Token} {s : Side} (h : nextSide? ts = some (s, rest)) :
    ∃ gap t, Token.AllTrivia gap ∧ side? t.kind = some s ∧ ts = gap ++ t :: rest := by
  obtain ⟨gap, hgap, hts, -⟩ := exists_gap ts
  rw [nextSide?] at h
  split at h
  · next t more hskip =>
    rw [Option.map_eq_some_iff] at h
    obtain ⟨s', hs, heq⟩ := h
    cases heq
    exact ⟨gap, t, hgap, hs, by rw [hts, hskip]⟩
  · exact absurd h nofun

theorem sidesAt_of_sides? {ts rest : List Token} {sides : List Side}
    (h : sides? ts = some (sides, rest)) :
    ∃ gap front, Token.AllTrivia gap ∧ SidesAt front sides ∧ ts = gap ++ (front ++ rest) := by
  unfold sides? at h
  split at h
  · exact absurd h nofun
  · next s behind hfirst =>
    obtain ⟨gap, t, hgap, ht, rfl⟩ := exists_of_nextSide? hfirst
    split at h
    · cases h
      exact ⟨gap, [t], hgap, .one ht, rfl⟩
    · next s' behind' hsecond =>
      obtain ⟨gap', t', hgap', ht', rfl⟩ := exists_of_nextSide? hsecond
      split at h
      · exact absurd h nofun
      · next haxes =>
        cases h
        exact ⟨gap, t :: gap' ++ [t'], hgap, .two ht hgap' ht' haxes, by simp⟩

theorem angle?_of_side? {k : TokenKind} {s : Side} (h : side? k = some s) : angle? k = none := by
  cases k <;> first | rfl | exact absurd h nofun

theorem isIdentNamed_of_side? {k : TokenKind} {s : Side} (h : side? k = some s) :
    k.isIdentNamed "to" = false := by
  rw [Bool.eq_false_iff]
  intro hto
  rw [side?_of_to hto] at h
  exact absurd h nofun

theorem angle?_of_to {k : TokenKind} (h : k.isIdentNamed "to" = true) : angle? k = none := by
  cases k <;> first | rfl | exact absurd h nofun

theorem isTrivia_of_to {t : Token} (h : t.kind.isIdentNamed "to" = true) :
    t.isTrivia = false := by
  rcases t with ⟨kind, location, text⟩
  cases kind <;> first | rfl | exact absurd h nofun

theorem isTrivia_of_angle? {t : Token} {h : Heading Float} (ha : angle? t.kind = some h) :
    t.isTrivia = false := by
  rcases t with ⟨kind, location, text⟩
  cases kind <;> first | rfl | exact absurd ha nofun

theorem sidesAt_head {ts : List Token} {sides : List Side} (h : SidesAt ts sides) :
    ∃ t s more, ts = t :: more ∧ side? t.kind = some s := by
  cases h with
  | one side => exact ⟨_, _, [], rfl, side⟩
  | two side => exact ⟨_, _, _, rfl, side⟩

/-- A gradient line with a comma behind it is read as it is written. -/
theorem line?_of_lineAt {gap line gap' behind : List Token} {comma : Token} {h : Heading Float}
    (hgap : Token.AllTrivia gap) (hline : LineAt line h) (hgap' : Token.AllTrivia gap')
    (hcomma : comma.kind = .comma) :
    line? (gap ++ (line ++ (gap' ++ comma :: behind))) = some (h, gap' ++ comma :: behind) := by
  have hangle {t : Token} (ht : angle? t.kind = some h) :
      line? (gap ++ ([t] ++ (gap' ++ comma :: behind))) = some (h, gap' ++ comma :: behind) := by
    rw [List.singleton_append, line?, skipTrivia_gap hgap (isTrivia_of_angle? ht), Token.headKind,
      ht]
    rfl
  cases hline with
  | zero kind zero => exact hangle (by simp [angle?, kind, zero])
  | angle kind unit => exact hangle (by simp [angle?, kind, unit])
  | @sides _ sides at_sides =>
    obtain ⟨t, s, more, rfl, ht⟩ := sidesAt_head at_sides
    have hread := sides?_of_sidesAt Token.allTrivia_nil at_sides hgap' hcomma behind
    rw [List.cons_append, line?, skipTrivia_gap hgap (isTrivia_of_side? ht), Token.headKind,
      angle?_of_side? ht]
    dsimp only
    rw [corner?, Token.headKind, isIdentNamed_of_side? ht, if_neg Bool.false_ne_true]
    rw [List.nil_append, List.cons_append] at hread
    rw [hread]
    rfl
  | @toSides t blank between ts sides word whitespace trivia at_sides =>
    have hblank : Token.AllTrivia (blank :: between) := by
      intro u hu
      rcases List.mem_cons.1 hu with rfl | hu
      · exact Token.isTrivia_of_isWhitespace whitespace
      · exact trivia u hu
    have hread := sides?_of_sidesAt hblank at_sides hgap' hcomma behind
    rw [List.cons_append, List.cons_append, line?, skipTrivia_gap hgap (isTrivia_of_to word),
      Token.headKind, angle?_of_to word]
    dsimp only
    have hcorner (more : List Token) : corner? (t :: blank :: more) =
        (sides? (blank :: more)).map fun r => (.corner r.1 true, r.2) :=
      (if_pos word).trans (if_pos whitespace)
    rw [List.cons_append] at hread
    rw [List.cons_append, List.cons_append, hcorner, List.append_assoc, hread]
    rfl

theorem lineAt_of_angle? {t : Token} {h : Heading Float} (ha : angle? t.kind = some h) :
    LineAt [t] h := by
  unfold angle? at ha
  split at ha
  · next value hkind =>
    split at ha
    · next hzero =>
      cases ha
      exact .zero hkind hzero
    · exact absurd ha nofun
  · next value unit hkind =>
    rw [Option.map_eq_some_iff] at ha
    obtain ⟨u, hu, rfl⟩ := ha
    exact .angle hkind hu
  · exact absurd ha nofun

/-- Behind the word `to` and whitespace comes more trivia and then a side. -/
theorem exists_sides_of_to {t : Token} {ts rest : List Token} {sides : List Side}
    (word : t.kind.isIdentNamed "to" = true) (hblank : (Token.headKind ts).isWhitespace = true)
    (h : sides? ts = some (sides, rest)) :
    ∃ line, LineAt line (.corner sides true) ∧ t :: ts = line ++ rest := by
  obtain ⟨gap, front, hgap, hfront, rfl⟩ := sidesAt_of_sides? h
  cases gap with
  | nil =>
    obtain ⟨u, s, more, rfl, hu⟩ := sidesAt_head hfront
    have htrivia := Token.isTrivia_of_isWhitespace (show u.isWhitespace = true from hblank)
    rw [isTrivia_of_side? hu] at htrivia
    exact absurd htrivia Bool.false_ne_true
  | cons blank gap =>
    exact ⟨t :: blank :: gap ++ front,
      .toSides word hblank (fun u hu => hgap u (List.mem_cons_of_mem _ hu)) hfront, by simp⟩

theorem lineAt_of_line? {ts rest : List Token} {h : Heading Float}
    (hline : line? ts = some (h, rest)) :
    ∃ gap line, Token.AllTrivia gap ∧ LineAt line h ∧ ts = gap ++ (line ++ rest) := by
  obtain ⟨gap, hgap, hts, -⟩ := exists_gap ts
  unfold line? at hline
  split at hline
  · next h' hangle =>
    cases hline
    rcases hskip : skipTrivia ts with _ | ⟨t, more⟩
    · rw [hskip] at hangle
      exact absurd hangle nofun
    · rw [hskip] at hangle hts
      exact ⟨gap, [t], hgap, lineAt_of_angle? hangle, hts⟩
  · unfold corner? at hline
    split at hline
    · next hword =>
      split at hline
      · next hblank =>
        rw [Option.map_eq_some_iff] at hline
        obtain ⟨⟨sides, rest'⟩, hsides, heq⟩ := hline
        cases heq
        rcases hskip : skipTrivia ts with _ | ⟨t, more⟩
        · rw [hskip] at hword
          exact absurd hword nofun
        · rw [hskip] at hword hblank hsides hts
          obtain ⟨line, hat, hline⟩ := exists_sides_of_to hword hblank hsides
          exact ⟨gap, line, hgap, hat, by rw [← hline]; exact hts⟩
      · exact absurd hline nofun
    · rw [Option.map_eq_some_iff] at hline
      obtain ⟨⟨sides, rest'⟩, hsides, heq⟩ := hline
      cases heq
      obtain ⟨gap', front, hgap', hfront, hskip⟩ := sidesAt_of_sides? hsides
      refine ⟨gap ++ gap', front, fun t ht => ?_, .sides hfront, ?_⟩
      · exact (List.mem_append.1 ht).elim (hgap t) (hgap' t)
      · rw [hts, hskip, List.append_assoc]

/-- A heading is read exactly where there is a line with a comma. -/
theorem readHeading_of_headedBy {ts behind : List Token} {h : Heading Float}
    (hts : HeadedBy ts h behind) : readHeading ts = (h, behind) := by
  cases hts with
  | @line gap line gap' _ comma _ trivia at_line trivia' kind =>
    rw [List.append_assoc, List.append_assoc, readHeading, line?_of_lineAt trivia at_line trivia' kind]
    dsimp only
    rw [skipTrivia_gap trivia' (isTrivia_of_comma kind)]
    rcases comma with ⟨k, place, sign⟩
    obtain rfl : k = .comma := kind
    rfl

theorem readHeading_cases (ts : List Token) :
    (∃ h behind, HeadedBy ts h behind) ∨ readHeading ts = (.none, ts) := by
  unfold readHeading
  split
  · exact .inr rfl
  · next h rest hline =>
    obtain ⟨gap, line, hgap, hat, hts⟩ := lineAt_of_line? hline
    obtain ⟨gap', hgap', hrest, -⟩ := exists_gap rest
    split
    · next place sign behind hskip =>
      rw [hskip] at hrest
      have hheaded : HeadedBy (gap ++ line ++ gap' ++ ⟨.comma, place, sign⟩ :: behind) h behind :=
        .line hgap hat hgap' rfl
      refine .inl ⟨h, behind, ?_⟩
      rw [hts, hrest]
      simpa using hheaded
    · exact .inr rfl

/-! ## Gradients -/

theorem ofTokens?_function {gap : List Token} {t : Token} {name : String}
    (hgap : Token.AllTrivia gap) (hkind : t.kind = .function name)
    (hname : sameLetters name "linear-gradient" = true) (ts : List Token) :
    ofTokens? (gap ++ t :: ts) =
      match stopsFrom 0 (readHeading ts).2 with
      | some stops => if stops.length < 2 then none else some ⟨(readHeading ts).1, stops⟩
      | none => none := by
  have hsolid : t.isTrivia = false := by
    rw [Token.isTrivia, hkind]
    rfl
  rw [ofTokens?, skipTrivia_gap hgap hsolid]
  simp only [hkind]
  exact if_pos hname

theorem ofTokens?_of_gradientAt {ts : List Token} {g : Gradient Float} (h : GradientAt ts g) :
    ofTokens? ts = some g := by
  cases h with
  | headed trivia kind isGradient heading at_stops several =>
    rw [ofTokens?_function trivia kind isGradient, readHeading_of_headedBy heading,
      stopsFrom_of_stopsAt at_stops]
    dsimp only
    rw [if_neg (Nat.not_lt.2 several)]
  | @plain gap stops rest t name others trivia kind isGradient no_heading at_stops several =>
    have hnone : readHeading (stops ++ rest) = (.none, stops ++ rest) :=
      (readHeading_cases (stops ++ rest)).resolve_left fun ⟨h, behind, hh⟩ => no_heading h behind hh
    rw [ofTokens?_function trivia kind isGradient, hnone, stopsFrom_of_stopsAt at_stops]
    dsimp only
    rw [if_neg (Nat.not_lt.2 several)]

theorem gradientAt_of_ofTokens? {ts : List Token} {g : Gradient Float} (h : ofTokens? ts = some g) :
    GradientAt ts g := by
  obtain ⟨gap, hgap, hts, -⟩ := exists_gap ts
  have hfull := h
  unfold ofTokens? at h
  split at h
  · exact absurd h nofun
  · next t rest hskip =>
    split at h
    · next name hkind =>
      split at h
      · next hname =>
        rw [hskip] at hts
        rw [hts, ofTokens?_function hgap hkind hname] at hfull
        rcases hstops : stopsFrom 0 (readHeading rest).2 with _ | stops
        · rw [hstops] at hfull
          exact absurd hfull nofun
        rw [hstops] at hfull
        dsimp only at hfull
        split at hfull
        · exact absurd hfull nofun
        · next hseveral =>
          cases hfull
          obtain ⟨front, behind, hbehind, hat⟩ := stopsAt_of_stopsFrom hstops
          rw [hts]
          by_cases hheaded : ∃ h more, HeadedBy rest h more
          · obtain ⟨h, more, hheading⟩ := hheaded
            rw [readHeading_of_headedBy hheading] at hbehind ⊢
            dsimp only at hbehind
            rw [hbehind] at hheading
            exact .headed hgap hkind hname hheading hat (Nat.not_lt.1 hseveral)
          · have hnone := (readHeading_cases rest).resolve_left hheaded
            rw [hnone] at hbehind ⊢
            dsimp only at hbehind
            rw [hbehind] at hheaded ⊢
            exact .plain hgap hkind hname (fun h more hh => hheaded ⟨h, more, hh⟩) hat
              (Nat.not_lt.1 hseveral)
      · exact absurd h nofun
    · exact absurd h nofun

/-- Reading gives exactly the gradient that the tokens of a text start with; there is never more
than one. -/
theorem parse?_eq_some_iff (text : String) :
    (∀ g, parse? text = some g ↔ GradientAt (Token.lex .origin (unifyLineEnds text.toList)) g) ∧
      ((parse? text).isSome = true ↔
        ∃! g, GradientAt (Token.lex .origin (unifyLineEnds text.toList)) g) := by
  have hread (g : Gradient Float) :
      parse? text = some g ↔ GradientAt (Token.lex .origin (unifyLineEnds text.toList)) g :=
    ⟨gradientAt_of_ofTokens?, ofTokens?_of_gradientAt⟩
  refine ⟨hread, fun h => ?_, fun ⟨g, hg, _⟩ => ?_⟩
  · obtain ⟨g, hg⟩ := Option.isSome_iff_exists.1 h
    refine ⟨g, (hread g).1 hg, fun g' hg' => ?_⟩
    have hsame := hg.symm.trans ((hread g').2 hg')
    exact (Option.some.inj hsame).symm
  · rw [(hread g).2 hg]
    rfl

/-- The word `to` is a color where no line can be read. -/
example : parse? "linear-gradient(to /**/, hsl(a(b)) )" =
    some ⟨.none, [⟨"to", none⟩, ⟨"hsl(a(b))", none⟩]⟩ := by rfl

end Gradient
end GradientFallback
