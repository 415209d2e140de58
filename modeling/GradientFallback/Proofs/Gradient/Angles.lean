import GradientFallback.Gradient.Direction
import Mathlib.Algebra.Order.Round
import Mathlib.Data.Rat.Floor
import Mathlib.Tactic.Linarith
import Mathlib.Tactic.FieldSimp
import Mathlib.Tactic.Ring

/-! # Rational angles

On rational numbers the direction of an angle follows from where it stands between the multiples of
ninety degrees: the side is the one of the multiple less than half a quarter away, or half a quarter
before it, and the direction is exact if that multiple is within the tolerance.
-/
namespace GradientFallback

namespace Side

/-- The number of quarter turns from the top to a side, clockwise. -/
def quarters : Side → Int
  | top => 0
  | right => 1
  | bottom => 2
  | left => 3

/-- The angle from the top to a side, clockwise and in degrees. -/
def bearing : Side → Rat
  | top => 0
  | right => 90
  | bottom => 180
  | left => 270

theorem bearing_eq (s : Side) : s.bearing = 90 * s.quarters := by
  cases s <;> norm_num [bearing, quarters]

/-- The next side clockwise. -/
def clockwise : Side → Side
  | top => right
  | right => bottom
  | bottom => left
  | left => top

theorem quarters_inj {s s' : Side} {k k' : Int} (h : s.quarters + 4 * k = s'.quarters + 4 * k') :
    s = s' := by
  cases s <;> cases s' <;> simp only [quarters] at h <;> first | rfl | omega

theorem quarters_clockwise (s : Side) :
    ∃ k : Int, s.quarters + 1 = s.clockwise.quarters + 4 * k := by
  cases s with
  | top => exact ⟨0, rfl⟩
  | right => exact ⟨0, rfl⟩
  | bottom => exact ⟨0, rfl⟩
  | left => exact ⟨1, rfl⟩

theorem clockwise_clockwise (s : Side) : s.clockwise.clockwise = s.inverse := by
  cases s <;> rfl

/-- Every quarter turn goes to a side. -/
theorem exists_quarters (m : Int) : ∃ (s : Side) (k : Int), m = s.quarters + 4 * k := by
  have hsplit := Int.emod_add_mul_ediv m 4
  have hcases : m % 4 = 0 ∨ m % 4 = 1 ∨ m % 4 = 2 ∨ m % 4 = 3 := by omega
  rcases hcases with h | h | h | h <;> rw [h] at hsplit
  · exact ⟨top, m / 4, hsplit.symm⟩
  · exact ⟨right, m / 4, hsplit.symm⟩
  · exact ⟨bottom, m / 4, hsplit.symm⟩
  · exact ⟨left, m / 4, hsplit.symm⟩

end Side

/-! ## Exact arithmetic -/

theorem truncate_of_nonneg {x : Rat} (h : 0 ≤ x) : truncate x = ⌊x⌋ := by
  rw [truncate, Rat.floor_def', Int.tdiv_eq_ediv_of_nonneg (Rat.num_nonneg.2 h)]

theorem truncate_neg (x : Rat) : truncate (-x) = -truncate x := by
  rw [truncate, truncate, Rat.num_neg_eq_neg_num, Rat.den_neg_eq_den, Int.neg_tdiv]

theorem truncate_of_nonpos {x : Rat} (h : x ≤ 0) : truncate x = ⌈x⌉ := by
  have hneg := truncate_of_nonneg (neg_nonneg.2 h)
  rw [truncate_neg, Int.floor_neg] at hneg
  exact neg_injective hneg

theorem abs_sub_truncate_lt (x : Rat) : |x - truncate x| < 1 := by
  rw [abs_lt]
  rcases le_total 0 x with h | h
  · rw [truncate_of_nonneg h]
    constructor <;> linarith [Int.floor_le x, Int.lt_floor_add_one x]
  · rw [truncate_of_nonpos h]
    constructor <;> linarith [Int.le_ceil x, Int.ceil_lt_add_one x]

/-- There is one whole number less than a half away. -/
theorem eq_of_near {x : Rat} {m n : Int} (hm : |x - m| ≤ 1 / 2) (hn : |x - n| < 1 / 2) : m = n := by
  rw [abs_le] at hm
  rw [abs_lt] at hn
  have hless : (m : Rat) < ((n + 1 : Int) : Rat) := by
    push_cast
    linarith
  have hmore : (n : Rat) < ((m + 1 : Int) : Rat) := by
    push_cast
    linarith
  have hless' : m < n + 1 := by exact_mod_cast hless
  have hmore' : n < m + 1 := by exact_mod_cast hmore
  omega

namespace AngleNumber

@[simp] theorem ofNat_rat (n : Nat) : (ofNat n : Rat) = n := by
  change mkRat (Int.ofNat n) 1 = n
  simp [Rat.mkRat_one]

@[simp] theorem abs_rat (x : Rat) : AngleNumber.abs x = |x| := by
  change Rat.abs x = |x|
  unfold Rat.abs
  split
  · next h => exact (abs_of_nonneg h).symm
  · next h => exact (abs_of_neg (not_le.1 h)).symm

/-- Rounding goes to a nearest whole number. -/
theorem exists_round (x : Rat) : ∃ n : Int, AngleNumber.round x = (n : Rat) ∧ |x - n| ≤ 1 / 2 := by
  have hhalf : mkRat 1 2 = 1 / 2 := by rw [Rat.mkRat_eq_div]; norm_num
  have hround : AngleNumber.round x =
      ((if 0 ≤ x.num then truncate (x + 1 / 2) else truncate (x - 1 / 2) : Int) : Rat) := by
    rw [← hhalf]
    rfl
  refine ⟨_, hround, abs_le.2 ?_⟩
  by_cases h : 0 ≤ x.num
  · have hx := Rat.num_nonneg.1 h
    rw [if_pos h, truncate_of_nonneg (by linarith)]
    constructor <;> linarith [Int.floor_le (x + 1 / 2), Int.lt_floor_add_one (x + 1 / 2)]
  · have hx := Rat.num_neg.1 (not_le.1 h)
    rw [if_neg h, truncate_of_nonpos (by linarith)]
    constructor <;> linarith [Int.le_ceil (x - 1 / 2), Int.ceil_lt_add_one (x - 1 / 2)]

/-- A remainder differs from the dividend by a multiple of the divisor, and is smaller than that. -/
theorem exists_remainder (x : Rat) {y : Rat} (hy : 0 < y) :
    ∃ k : Int, remainder x y = x - y * k ∧ |remainder x y| < y := by
  have hremainder : remainder x y = x - y * truncate (x / y) := rfl
  refine ⟨truncate (x / y), hremainder, ?_⟩
  have hscale : x - y * truncate (x / y) = y * (x / y - truncate (x / y)) := by field_simp
  rw [hremainder, hscale, abs_mul, abs_of_pos hy]
  exact mul_lt_of_lt_one_right hy (abs_sub_truncate_lt (x / y))

theorem remainder_nonneg {x y : Rat} (hx : 0 ≤ x) (hy : 0 < y) : 0 ≤ remainder x y := by
  change 0 ≤ x - y * truncate (x / y)
  rw [truncate_of_nonneg (by positivity)]
  have hfloor := mul_le_mul_of_nonneg_left (Int.floor_le (x / y)) hy.le
  rw [mul_div_cancel₀ x hy.ne'] at hfloor
  linarith

end AngleNumber

namespace Direction

theorem tolerance_rat : (tolerance : Rat) = 1 / 10 ^ 9 := by
  change (AngleNumber.ofNat 1 : Rat) / AngleNumber.ofNat 1000000000 = _
  norm_num

/-! ## The closest side -/

theorem withinTurn_rat (d : Rat) :
    ∃ k : Int, withinTurn d = d - 360 * k ∧ 0 ≤ withinTurn d ∧ withinTurn d < 360 := by
  have hturn : (0 : Rat) < 360 := by norm_num
  have hdef : withinTurn d =
      AngleNumber.remainder (AngleNumber.remainder d 360 + 360) 360 := by
    unfold withinTurn
    rw [AngleNumber.ofNat_rat]
    rfl
  obtain ⟨k, hk, hsmall⟩ := AngleNumber.exists_remainder d hturn
  have hpos : 0 ≤ AngleNumber.remainder d 360 + 360 := by linarith [(abs_lt.1 hsmall).1]
  obtain ⟨m, hm, hbound⟩ := AngleNumber.exists_remainder (AngleNumber.remainder d 360 + 360) hturn
  rw [← hdef] at hm hbound
  refine ⟨k + m - 1, ?_, ?_, (abs_lt.1 hbound).2⟩
  · rw [hm, hk]
    push_cast
    ring
  · rw [hdef]
    exact AngleNumber.remainder_nonneg hpos hturn

/-- The angle lies within half a quarter of the side, or half a quarter behind it. -/
def Faces (d : Rat) (s : Side) : Prop :=
  ∃ k : Int, -45 < d - (s.bearing + 360 * k) ∧ d - (s.bearing + 360 * k) ≤ 45

theorem Faces.unique {d : Rat} {s s' : Side} (h : Faces d s) (h' : Faces d s') : s = s' := by
  obtain ⟨k, hlow, hhigh⟩ := h
  obtain ⟨k', hlow', hhigh'⟩ := h'
  rw [Side.bearing_eq] at hlow hhigh hlow' hhigh'
  have hless : s.quarters + 4 * k < s'.quarters + 4 * k' + 1 := by
    have hcast : ((s.quarters + 4 * k : Int) : Rat) < ((s'.quarters + 4 * k' + 1 : Int) : Rat) := by
      push_cast
      linarith
    exact_mod_cast hcast
  have hmore : s'.quarters + 4 * k' < s.quarters + 4 * k + 1 := by
    have hcast : ((s'.quarters + 4 * k' : Int) : Rat) < ((s.quarters + 4 * k + 1 : Int) : Rat) := by
      push_cast
      linarith
    exact_mod_cast hcast
  have hsame : s.quarters + 4 * k = s'.quarters + 4 * k' := by omega
  exact Side.quarters_inj hsame

theorem closestSide_rat (d : Rat) : closestSide d =
    if withinTurn d ≤ 45 then .top
    else if withinTurn d ≤ 135 then .right
    else if withinTurn d ≤ 225 then .bottom
    else if withinTurn d ≤ 315 then .left
    else .top := by
  have hupTo (n : Nat) : AngleNumber.le (withinTurn d / AngleNumber.ofNat 45) (AngleNumber.ofNat n) =
      decide (withinTurn d ≤ 45 * n) := by
    rw [AngleNumber.ofNat_rat, AngleNumber.ofNat_rat]
    change decide (withinTurn d / (45 : Nat) ≤ n) = decide (withinTurn d ≤ 45 * n)
    rw [decide_eq_decide, div_le_iff₀ (by norm_num)]
    push_cast
    rw [mul_comm]
  simp only [closestSide, hupTo, decide_eq_true_eq]
  norm_num

theorem faces_closestSide (d : Rat) : Faces d (closestSide d) := by
  obtain ⟨k, hk, hlow, hhigh⟩ := withinTurn_rat d
  rw [closestSide_rat]
  split_ifs with htop hright hbottom hleft
  · exact ⟨k, by rw [Side.bearing]; linarith, by rw [Side.bearing]; linarith⟩
  · exact ⟨k, by rw [Side.bearing]; linarith, by rw [Side.bearing]; linarith⟩
  · exact ⟨k, by rw [Side.bearing]; linarith, by rw [Side.bearing]; linarith⟩
  · exact ⟨k, by rw [Side.bearing]; linarith, by rw [Side.bearing]; linarith⟩
  · refine ⟨k + 1, ?_, ?_⟩ <;> rw [Side.bearing] <;> push_cast <;> linarith

theorem closestSide_eq_iff {d : Rat} {s : Side} : closestSide d = s ↔ Faces d s :=
  ⟨fun h => h ▸ faces_closestSide d, (faces_closestSide d).unique⟩

/-- How far apart two angles in degrees are on the circle, the shorter way round. -/
def apart (x y : Rat) : Rat := |x - y - 360 * round ((x - y) / 360)|

theorem apart_eq {x y : Rat} {k : Int} (h : |x - y - 360 * k| < 180) :
    apart x y = |x - y - 360 * k| := by
  have hscale : x - y - 360 * k = 360 * ((x - y) / 360 - k) := by field_simp
  have hnear : |(x - y) / 360 - k| < 1 / 2 := by
    rw [hscale, abs_mul, abs_of_pos (by norm_num)] at h
    linarith
  rw [apart, eq_of_near (abs_sub_round _) hnear]

theorem Faces.apart {d : Rat} {s : Side} (h : Faces d s) :
    apart d s.bearing ≤ 45 ∧
      (Direction.apart d s.bearing = 45 ↔ ∃ k : Int, d = s.bearing + 45 + 360 * k) := by
  obtain ⟨k, hlow, hhigh⟩ := h
  have hsplit : d - s.bearing - 360 * k = d - (s.bearing + 360 * k) := by ring
  have hsmall : |d - s.bearing - 360 * k| ≤ 45 := by
    rw [hsplit]
    exact abs_le.2 ⟨hlow.le, hhigh⟩
  rw [apart_eq (hsmall.trans_lt (by norm_num))]
  refine ⟨hsmall, fun hedge => ⟨k, ?_⟩, ?_⟩
  · rw [hsplit] at hedge
    rcases (abs_eq (by norm_num)).1 hedge with heq | heq <;> linarith
  · rintro ⟨m, hm⟩
    have hturn : |d - s.bearing - 360 * m| = 45 := by
      rw [hm, show s.bearing + 45 + 360 * (m : Rat) - s.bearing - 360 * m = 45 by ring]
      exact abs_of_pos (by norm_num)
    rw [← apart_eq (hsmall.trans_lt (by norm_num)), apart_eq (hturn.trans_lt (by norm_num)), hturn]

/-! ## Exact angles -/

theorem isSkew_eq_false_iff (d : Rat) :
    isSkew d = false ↔ ∃ m : Int, |d - 90 * m| ≤ 90 * tolerance := by
  obtain ⟨n, hn, hnear⟩ := AngleNumber.exists_round (d / 90)
  have hskew : isSkew d = decide (tolerance < |d / 90 - n|) := by
    have hquarters : d / AngleNumber.ofNat 90 = d / 90 := by
      rw [AngleNumber.ofNat_rat]
      rfl
    simp only [isSkew]
    rw [← hn, ← AngleNumber.abs_rat, ← hquarters]
    rfl
  have hscale (m : Int) : |d - 90 * m| = 90 * |d / 90 - m| := by
    have hfactor : d - 90 * m = 90 * (d / 90 - m) := by field_simp
    rw [hfactor, abs_mul, abs_of_pos (by norm_num)]
  rw [hskew, decide_eq_false_iff_not, not_lt]
  constructor
  · intro h
    refine ⟨n, ?_⟩
    rw [hscale]
    linarith
  · rintro ⟨m, hm⟩
    rw [hscale] at hm
    have hclose : |d / 90 - m| ≤ tolerance := by linarith
    have hhalf : |d / 90 - m| < 1 / 2 := hclose.trans_lt (by rw [tolerance_rat]; norm_num)
    rwa [eq_of_near hnear hhalf]

/-- Next to a multiple of a quarter the closest side is the one of that multiple. -/
theorem bearing_closestSide {d : Rat} {m : Int} (h : |d - 90 * m| ≤ 90 * tolerance) :
    ∃ k : Int, 90 * (m : Rat) = (closestSide d).bearing + 360 * k := by
  obtain ⟨s, k, hm⟩ := Side.exists_quarters m
  have hside : 90 * (m : Rat) = s.bearing + 360 * k := by
    rw [hm, Side.bearing_eq]
    push_cast
    ring
  have hfaces : Faces d s := by
    rw [tolerance_rat, hside, abs_le] at h
    refine ⟨k, ?_, ?_⟩ <;> linarith
  exact ⟨k, by rw [closestSide_eq_iff.2 hfaces, hside]⟩

/-! ## Turning an angle -/

theorem closestSide_add_turns (d : Rat) (k : Int) : closestSide (d + 360 * k) = closestSide d := by
  obtain ⟨m, hlow, hhigh⟩ := faces_closestSide d
  apply closestSide_eq_iff.2
  refine ⟨m + k, ?_, ?_⟩ <;> push_cast <;> linarith

theorem closestSide_add_quarter (d : Rat) : closestSide (d + 90) = (closestSide d).clockwise := by
  obtain ⟨m, hlow, hhigh⟩ := faces_closestSide d
  obtain ⟨k, hk⟩ := (closestSide d).quarters_clockwise
  have hnext : (closestSide d).bearing + 90 = (closestSide d).clockwise.bearing + 360 * k := by
    have hcast : ((closestSide d).quarters : Rat) + 1 = (closestSide d).clockwise.quarters + 4 * k := by
      exact_mod_cast hk
    rw [Side.bearing_eq, Side.bearing_eq]
    linarith
  apply closestSide_eq_iff.2
  refine ⟨m + k, ?_, ?_⟩ <;> push_cast <;> linarith

theorem isSkew_add_quarters (d : Rat) (k : Int) : isSkew (d + 90 * k) = isSkew d := by
  rw [Bool.eq_iff_iff, ← not_iff_not, Bool.not_eq_true, Bool.not_eq_true, isSkew_eq_false_iff,
    isSkew_eq_false_iff]
  constructor
  · rintro ⟨m, hm⟩
    refine ⟨m - k, ?_⟩
    rwa [show d - 90 * ((m - k : Int) : Rat) = d + 90 * k - 90 * m by push_cast; ring]
  · rintro ⟨m, hm⟩
    refine ⟨m + k, ?_⟩
    rwa [show d + 90 * (k : Rat) - 90 * ((m + k : Int) : Rat) = d - 90 * m by push_cast; ring]

theorem ofDegrees_add_turns (d : Rat) (k : Int) : ofDegrees (d + 360 * k) = ofDegrees d := by
  have hskew := isSkew_add_quarters d (4 * k)
  rw [show d + 90 * ((4 * k : Int) : Rat) = d + 360 * k by push_cast; ring] at hskew
  rw [ofDegrees, ofDegrees, closestSide_add_turns, hskew]

theorem ofDegrees_add_quarter (d : Rat) :
    ofDegrees (d + 90) = ⟨(ofDegrees d).side.clockwise, (ofDegrees d).approximation⟩ := by
  have hskew := isSkew_add_quarters d 1
  rw [Int.cast_one, mul_one] at hskew
  rw [ofDegrees, closestSide_add_quarter, hskew]
  rfl

end Direction

/-! ## Units -/

namespace AngleUnit

theorem perTurn_rat : (deg.perTurn : Rat) = 360 ∧ (grad.perTurn : Rat) = 400 ∧
    (turn.perTurn : Rat) = 1 := by
  simp [perTurn]

theorem perTurn_pos (u : AngleUnit) : 0 < (u.perTurn : Rat) := by
  cases u with
  | deg => norm_num [perTurn]
  | grad => norm_num [perTurn]
  | turn => norm_num [perTurn]
  | rad =>
    change 0 < mkRat 0x1921fb54442d18 (Nat.pow 2 50)
    rw [Rat.mkRat_eq_div]
    norm_num

/-- A turn has as many degrees in every unit. -/
theorem degrees_turns (t : Rat) (u : AngleUnit) : u.degrees (t * u.perTurn) = t * 360 := by
  have hdegrees : u.degrees (t * u.perTurn) = t * u.perTurn / u.perTurn * 360 := by
    rw [degrees, AngleNumber.ofNat_rat]
    rfl
  rw [hdegrees, mul_div_cancel_right₀ t u.perTurn_pos.ne']

end AngleUnit

namespace Direction

theorem ofHeading_turns (t : Rat) (u : AngleUnit) :
    ofHeading (.angle (t * u.perTurn) u) = ofDegrees (t * 360) := by
  rw [ofHeading, AngleUnit.degrees_turns]

/-- An angle runs to the side that it is less than half a quarter away from or half a quarter behind,
and runs there exactly if it is within the tolerance of it.  Whole turns and the unit of the angle do
not matter, and a quarter turn turns the side. -/
theorem ofDegrees_closest (d : Rat) :
    (∀ k : Int, ofDegrees (d + 360 * k) = ofDegrees d) ∧
    ofDegrees (d + 90) = ⟨(ofDegrees d).side.clockwise, (ofDegrees d).approximation⟩ ∧
    (apart d (ofDegrees d).side.bearing ≤ 45 ∧
      (apart d (ofDegrees d).side.bearing = 45 ↔
        ∃ k : Int, d = (ofDegrees d).side.bearing + 45 + 360 * k)) ∧
    ((ofDegrees d).approximation = none ↔ ∃ m : Int, |d - 90 * m| ≤ 90 * tolerance) ∧
    (∀ m : Int, |d - 90 * m| ≤ 90 * tolerance →
      ∃ k : Int, 90 * (m : Rat) = (ofDegrees d).side.bearing + 360 * k) ∧
    ofHeading (.angle d .deg) = ofDegrees d ∧
    ofHeading (.angle (d / 360 * 400) .grad) = ofDegrees d ∧
    ofHeading (.angle (d / 360) .turn) = ofDegrees d := by
  obtain ⟨hdeg, hgrad, hturn⟩ := AngleUnit.perTurn_rat
  have hturns : d / 360 * 360 = d := div_mul_cancel₀ d (by norm_num)
  have hheading (u : AngleUnit) : ofHeading (.angle (d / 360 * u.perTurn) u) = ofDegrees d := by
    rw [ofHeading_turns, hturns]
  refine ⟨ofDegrees_add_turns d, ofDegrees_add_quarter d, (faces_closestSide d).apart, ?_,
    fun m hm => bearing_closestSide hm, ?_, ?_, ?_⟩
  · rw [← isSkew_eq_false_iff, ofDegrees]
    cases isSkew d <;> simp
  · simpa only [hdeg, hturns] using hheading .deg
  · simpa only [hgrad] using hheading .grad
  · simpa only [hturn, mul_one] using hheading .turn

/-- A whole turn is a multiple of a quarter, and the side of that multiple is the top. -/
theorem ofDegrees_closest_turn :
    |(360 : Rat) - 90 * (4 : Int)| ≤ 90 * tolerance ∧
      ∃ k : Int, 90 * ((4 : Int) : Rat) = (ofDegrees (360 : Rat)).side.bearing + 360 * k := by
  have hexact : |(360 : Rat) - 90 * (4 : Int)| ≤ 90 * tolerance := by
    rw [tolerance_rat]
    norm_num
  obtain ⟨-, -, -, -, hside, -⟩ := ofDegrees_closest 360
  exact ⟨hexact, hside 4 hexact⟩

/-- Between the left and the top stands an angle that runs to the left. -/
example : ofDegrees (-45 : Rat) = ⟨.left, some .angle⟩ := by decide +kernel

end Direction
end GradientFallback
