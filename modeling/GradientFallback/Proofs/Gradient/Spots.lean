import GradientFallback.Proofs.Gradient.Reading

/-! # Spots in a gradient

A spot in a gradient is known by the commas in front of it and by what is open there.  A color stop
leads from one comma to the next, and only in the arguments of its color is anything open.
-/
namespace GradientFallback

/-- The number of commas that a heading takes up. -/
def Heading.commas {α : Type} : Heading α → Nat
  | .none => 0
  | _ => 1

namespace Gradient

/-- A spot between the parentheses of a gradient: the number of commas in front of it and of the
functions and parentheses that are open there.  Commas inside of those do not count. -/
structure Spot where
  commas : Nat
  depth : Nat
  deriving DecidableEq

namespace Spot

/-- The spot behind one more token, unless that closes the gradient. -/
def next? (p : Spot) (k : TokenKind) : Option Spot :=
  if k.opens then some ⟨p.commas, p.depth + 1⟩
  else if k.closes then
    match p.depth with
    | 0 => none
    | d + 1 => some ⟨p.commas, d⟩
  else if p.depth = 0 ∧ k = .comma then some ⟨p.commas + 1, 0⟩
  else some p

/-- The spot behind more tokens. -/
def behind? (p : Spot) (ts : List Token) : Option Spot := ts.foldlM (fun q t => q.next? t.kind) p

variable {p : Spot} {k : TokenKind}

theorem behind?_append (ts us : List Token) :
    p.behind? (ts ++ us) = (p.behind? ts).bind fun q => q.behind? us := List.foldlM_append

theorem behind?_cons (t : Token) (ts : List Token) :
    p.behind? (t :: ts) = (p.next? t.kind).bind fun q => q.behind? ts := List.foldlM_cons

@[simp] theorem behind?_nil : p.behind? [] = some p := rfl

theorem next?_opens (h : k.opens = true) : p.next? k = some ⟨p.commas, p.depth + 1⟩ := if_pos h

theorem next?_closes {commas depth : Nat} (h : k.closes = true) :
    next? ⟨commas, depth + 1⟩ k = some ⟨commas, depth⟩ := by
  rw [next?, if_neg (by simp [not_opens_of_closes h]), if_pos h]

theorem next?_plain (hopens : k.opens = false) (hcloses : k.closes = false)
    (hcomma : p.depth = 0 → k ≠ .comma) : p.next? k = some p := by
  rw [next?, if_neg (by simp [hopens]), if_neg (by simp [hcloses]),
    if_neg fun h => hcomma h.1 h.2]

/-- Neither a comma nor what opens or closes anything. -/
def isNeutral (k : TokenKind) : Bool := !(k.opens || k.closes || k == .comma)

theorem behind?_neutral {ts : List Token} (h : ∀ t ∈ ts, isNeutral t.kind = true) :
    p.behind? ts = some p := by
  induction ts with
  | nil => rfl
  | cons t ts ih =>
    have ht := h t List.mem_cons_self
    simp only [isNeutral, Bool.not_eq_true', Bool.or_eq_false_iff, beq_eq_false_iff_ne] at ht
    rw [behind?_cons, next?_plain ht.1.1 ht.1.2 fun _ => ht.2]
    exact ih fun u hu => h u (List.mem_cons_of_mem t hu)

theorem isNeutral_of_isTrivia {t : Token} (h : t.isTrivia = true) : isNeutral t.kind = true := by
  rcases t with ⟨kind, location, text⟩
  cases kind <;> first | rfl | exact absurd h nofun

theorem behind?_trivia {gap : List Token} (h : Token.AllTrivia gap) : p.behind? gap = some p :=
  behind?_neutral fun t ht => isNeutral_of_isTrivia (h t ht)

/-- Inside of a function, tokens in which everything is closed lead nowhere else. -/
theorem behind?_balanced {inner : List Token} (h : Balanced inner) (commas depth : Nat) :
    behind? ⟨commas, depth + 1⟩ inner = some ⟨commas, depth + 1⟩ := by
  induction h generalizing depth with
  | nil => rfl
  | plain opens closes rest ih =>
    rw [behind?_cons, next?_plain opens closes fun h => absurd h (Nat.succ_ne_zero depth)]
    exact ih depth
  | group opens inside closes rest ihInside ihRest =>
    rw [List.cons_append, behind?_cons, next?_opens opens, Option.bind_some, behind?_append,
      ihInside, Option.bind_some, behind?_cons, next?_closes closes]
    exact ihRest depth

theorem behind?_color {color : List Token} (h : ColorAt color) : p.behind? color = some p := by
  have hplain {t : Token} (ht : isNeutral t.kind = true) : p.behind? [t] = some p :=
    behind?_neutral (List.forall_mem_singleton.2 ht)
  cases h with
  | hash kind => exact hplain (by rw [kind]; rfl)
  | idHash kind => exact hplain (by rw [kind]; rfl)
  | ident kind => exact hplain (by rw [kind]; rfl)
  | function kind isColor inside closes =>
    rw [List.cons_append, behind?_cons, next?_opens (by rw [kind]; rfl), Option.bind_some,
      behind?_append, behind?_balanced inside, Option.bind_some, behind?_cons, next?_closes closes]
    rfl

theorem isNeutral_of_side? {t : Token} {s : Side} (h : side? t.kind = some s) :
    isNeutral t.kind = true := by
  rcases t with ⟨kind, location, text⟩
  cases kind <;> first | rfl | exact absurd h nofun

theorem behind?_sides {ts : List Token} {sides : List Side} (h : SidesAt ts sides) :
    p.behind? ts = some p := by
  refine behind?_neutral fun t ht => ?_
  cases h with
  | one side =>
    obtain rfl := List.mem_singleton.1 ht
    exact isNeutral_of_side? side
  | two side trivia side' axes =>
    rcases List.mem_append.1 ht with ht | ht
    · rcases List.mem_cons.1 ht with rfl | ht
      · exact isNeutral_of_side? side
      · exact isNeutral_of_isTrivia (trivia t ht)
    · obtain rfl := List.mem_singleton.1 ht
      exact isNeutral_of_side? side'

theorem behind?_line {ts : List Token} {h : Heading Float} (hline : LineAt ts h) :
    p.behind? ts = some p := by
  have hplain {t : Token} (ht : isNeutral t.kind = true) : p.behind? [t] = some p :=
    behind?_neutral (List.forall_mem_singleton.2 ht)
  cases hline with
  | zero kind => exact hplain (by rw [kind]; rfl)
  | angle kind => exact hplain (by rw [kind]; rfl)
  | sides at_sides => exact behind?_sides at_sides
  | @toSides t blank gap ts sides word whitespace trivia at_sides =>
    have hword : isNeutral t.kind = true := by
      rcases t with ⟨kind, location, text⟩
      cases kind <;> first | rfl | exact absurd word nofun
    have hgap : Token.AllTrivia (blank :: gap) :=
      List.forall_mem_cons.2 ⟨Token.isTrivia_of_isWhitespace whitespace, trivia⟩
    have hfront : p.behind? (t :: blank :: gap) = some p := by
      rw [← List.singleton_append, behind?_append, hplain hword]
      exact behind?_trivia hgap
    rw [behind?_append, hfront]
    exact behind?_sides at_sides

theorem behind?_stop {ts : List Token} {s : ColorStop} (h : StopAt ts s) : p.behind? ts = some p := by
  cases h with
  | color trivia at_color =>
    rw [behind?_append, behind?_trivia trivia, Option.bind_some, behind?_color at_color]
  | @placed gap color gap' t trivia at_color trivia' position =>
    have hposition : isNeutral t.kind = true := by
      rcases t with ⟨kind, location, text⟩
      cases kind <;> first | rfl | exact absurd position nofun
    rw [behind?_append, behind?_append, behind?_append, behind?_trivia trivia, Option.bind_some,
      behind?_color at_color, Option.bind_some, behind?_trivia trivia', Option.bind_some]
    exact behind?_neutral (List.forall_mem_singleton.2 hposition)

end Spot

/-- Behind the heading is the spot behind its comma, if there is a heading. -/
theorem readHeading_spot (ts : List Token) : ∃ passed, ts = passed ++ (readHeading ts).2 ∧
    Spot.behind? ⟨0, 0⟩ passed = some ⟨(readHeading ts).1.commas, 0⟩ := by
  rcases readHeading_cases ts with ⟨h, behind, hheaded⟩ | hnone
  · rw [readHeading_of_headedBy hheaded]
    cases hheaded with
    | @line gap line gap' behind comma h trivia at_line trivia' kind =>
      refine ⟨gap ++ line ++ gap' ++ [comma], by simp, ?_⟩
      have hcommas : Heading.commas h = 1 := by cases at_line <;> rfl
      rw [Spot.behind?_append, Spot.behind?_append, Spot.behind?_append, Spot.behind?_trivia trivia,
        Option.bind_some, Spot.behind?_line at_line, Option.bind_some, Spot.behind?_trivia trivia',
        Option.bind_some, Spot.behind?_cons, kind, hcommas]
      rfl
  · rw [hnone]
    exact ⟨[], rfl, rfl⟩

end Gradient
end GradientFallback
