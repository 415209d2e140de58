import GradientFallback.Gradient.Filter
import GradientFallback.Proofs.Gradient.Angles

/-! # Gradients turned round

A gradient that runs the other way with its stops in the other order looks the same.  So the heading
turned round has the opposite side and is approximated where the heading is, and the filter of the
gradient turned round is the same filter, or fails for the same color.
-/
namespace GradientFallback

namespace Side

@[simp] theorem axis_inverse (s : Side) : s.inverse.axis = s.axis := by cases s <;> rfl

@[simp] theorem inverse_inverse (s : Side) : s.inverse.inverse = s := by cases s <;> rfl

@[simp] theorem isTurned_inverse (s : Side) :
    LegacyFilter.isTurned s.inverse = !LegacyFilter.isTurned s := by
  cases s <;> rfl

end Side

/-- The heading turned round.  Without sides it says as little as no heading, which runs to the
bottom. -/
def Heading.reversed {α : Type} [AngleNumber α] : Heading α → Heading α
  | angle value unit => angle (value + unit.perTurn / AngleNumber.ofNat 2) unit
  | corner [] _ => corner [.top] true
  | corner (s :: sides) toward => corner ((s :: sides).map Side.inverse) toward
  | none => corner [.top] true

namespace Direction

/-! ## Sides -/

theorem verticalFirst_inverse (sides : List Side) :
    verticalFirst (sides.map Side.inverse) = (verticalFirst sides).map Side.inverse := by
  simp only [verticalFirst, List.filter_map, List.map_append]
  congr 3 <;> ext s <;> simp

theorem verticalFirst_eq_nil_iff (sides : List Side) : verticalFirst sides = [] ↔ sides = [] := by
  constructor
  · intro h
    apply List.eq_nil_iff_forall_not_mem.2
    intro s hs
    have hmem : s ∈ verticalFirst sides := by
      by_cases haxis : s.axis = .vertical <;> simp [verticalFirst, hs, haxis]
    rw [h] at hmem
    exact List.not_mem_nil hmem
  · rintro rfl
    rfl

/-- Sides of different axes have their own places, whichever of them stands in front. -/
theorem verticalFirst_exchange (front back : List Side) {a b : Side} (h : a.axis ≠ b.axis) :
    verticalFirst (front ++ a :: b :: back) = verticalFirst (front ++ b :: a :: back) := by
  have hother : a.axis = .vertical ∧ b.axis ≠ .vertical ∨ a.axis ≠ .vertical ∧ b.axis = .vertical := by
    cases a <;> cases b <;> simp_all [Side.axis]
  rcases hother with ⟨ha, hb⟩ | ⟨ha, hb⟩ <;> simp [verticalFirst, ha, hb]

theorem ofSides_inverse {sides : List Side} (h : sides ≠ []) (toward : Bool) :
    ofSides (sides.map Side.inverse) toward =
      ⟨(ofSides sides toward).side.inverse, (ofSides sides toward).approximation⟩ := by
  unfold ofSides
  rw [verticalFirst_inverse]
  rcases hfirst : verticalFirst sides with _ | ⟨s, others⟩
  · exact absurd ((verticalFirst_eq_nil_iff sides).1 hfirst) h
  · cases toward <;> simp

/-- A side that a gradient starts from is opposite to one that it runs to. -/
theorem ofSides_away (sides : List Side) :
    ofSides sides false = ofSides (sides.map Side.inverse) true := by
  unfold ofSides
  rw [verticalFirst_inverse]
  rcases verticalFirst sides with _ | ⟨s, others⟩
  · rfl
  · simp

/-! ## Headings -/

theorem ofDegrees_add_half (d : Rat) :
    ofDegrees (d + 180) = ⟨(ofDegrees d).side.inverse, (ofDegrees d).approximation⟩ := by
  have hquarters : d + 180 = d + 90 + 90 := by ring
  rw [hquarters, ofDegrees_add_quarter, ofDegrees_add_quarter, Side.clockwise_clockwise]

theorem degrees_add_half (value : Rat) (u : AngleUnit) :
    u.degrees (value + u.perTurn / AngleNumber.ofNat 2) = u.degrees value + 180 := by
  have hturn := u.perTurn_pos.ne'
  obtain ⟨t, rfl⟩ : ∃ t : Rat, value = t * u.perTurn :=
    ⟨value / u.perTurn, (div_mul_cancel₀ value hturn).symm⟩
  have hmore : t * u.perTurn + u.perTurn / AngleNumber.ofNat 2 = (t + 1 / 2) * u.perTurn := by
    rw [AngleNumber.ofNat_rat, Nat.cast_ofNat]
    change t * u.perTurn + u.perTurn / 2 = _
    ring
  rw [hmore, AngleUnit.degrees_turns, AngleUnit.degrees_turns]
  ring

theorem ofHeading_reversed (h : Heading Rat) :
    ofHeading h.reversed = ⟨(ofHeading h).side.inverse, (ofHeading h).approximation⟩ := by
  cases h with
  | angle value unit =>
    rw [Heading.reversed, ofHeading, degrees_add_half]
    exact ofDegrees_add_half (unit.degrees value)
  | corner sides toward =>
    cases sides with
    | nil => rfl
    | cons s sides => exact ofSides_inverse (List.cons_ne_nil s sides) toward
  | none => rfl

end Direction

namespace LegacyFilter

/-! ## Filters -/

variable {α : Type}

theorem firstColor_reverse (h h' : Heading α) (stops : List ColorStop) :
    (Gradient.mk h stops.reverse).firstColor = (Gradient.mk h' stops).lastColor := by
  rw [Gradient.firstColor, Gradient.lastColor, List.head?_reverse]

theorem lastColor_reverse (h h' : Heading α) (stops : List ColorStop) :
    (Gradient.mk h stops.reverse).lastColor = (Gradient.mk h' stops).firstColor := by
  rw [Gradient.firstColor, Gradient.lastColor, List.getLast?_reverse]

variable [AngleNumber α]

/-- If a heading has the opposite direction, the stops in the other order have the same filter. -/
theorem ofGradient_reverse {h h' : Heading α} (hdirection : Direction.ofHeading h' =
    ⟨(Direction.ofHeading h).side.inverse, (Direction.ofHeading h).approximation⟩)
    (stops : List ColorStop) (text : String) :
    ofGradient ⟨h', stops.reverse⟩ text = ofGradient ⟨h, stops⟩ text := by
  have hmulti : (Gradient.mk h' stops.reverse).isMultiColor = (Gradient.mk h stops).isMultiColor := by
    rw [Gradient.isMultiColor, Gradient.isMultiColor, List.length_reverse]
  simp only [ofGradient, hdirection, firstColor_reverse h' h, lastColor_reverse h' h, hmulti,
    Side.axis_inverse, Side.isTurned_inverse]
  cases isTurned (Direction.ofHeading h).side <;> rfl

/-- A heading turned round runs to the opposite side, and with the stops in the other order it has the
same filter.  A corner to start from is the opposite corner to run to, and the order of sides of
different axes does not matter. -/
theorem ofGradient_reversed (α : Type) [AngleNumber α] (h : Heading Rat) (stops : List ColorStop)
    (text : String) :
    (Direction.ofHeading h.reversed =
        ⟨(Direction.ofHeading h).side.inverse, (Direction.ofHeading h).approximation⟩ ∧
      ofGradient ⟨h.reversed, stops.reverse⟩ text = ofGradient ⟨h, stops⟩ text) ∧
    (∀ sides : List Side, Direction.ofHeading (.corner sides false : Heading α) =
      Direction.ofHeading (.corner (sides.map Side.inverse) true : Heading α)) ∧
    ∀ (front back : List Side) (a b : Side) (toward : Bool), a.axis ≠ b.axis →
      Direction.ofHeading (.corner (front ++ a :: b :: back) toward : Heading α) =
        Direction.ofHeading (.corner (front ++ b :: a :: back) toward : Heading α) := by
  have hdirection := Direction.ofHeading_reversed h
  refine ⟨⟨hdirection, ofGradient_reverse hdirection stops text⟩, Direction.ofSides_away, ?_⟩
  intro front back a b toward haxis
  simp only [Direction.ofHeading, Direction.ofSides, Direction.verticalFirst_exchange front back haxis]

theorem ofGradient_reversed_corner : Side.axis .right ≠ Side.axis .top ∧
    Direction.ofHeading (.corner [.right, .top] false : Heading Float) =
      Direction.ofHeading (.corner [.top, .right] false : Heading Float) :=
  ⟨by decide, (ofGradient_reversed Float .none [] "").2.2 [] [] .right .top false (by decide)⟩

/-- A corner to start from is approximated by the side opposite to its vertical one. -/
example : Direction.ofHeading (.corner [.right, .top] false : Heading Rat) =
    ⟨.bottom, some .corner⟩ := rfl

end LegacyFilter
end GradientFallback
