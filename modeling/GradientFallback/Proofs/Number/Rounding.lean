import GradientFallback.Number.Decimal
import GradientFallback.Number.Binary
import Mathlib

/-! # Rounding to binary numbers of 32 bits

A rounded number is kept as a mantissa of 24 bits and what is known of the rest behind it.  Rounding
keeps a number below 256 within half of the last place, which is worth no more than one over 2 ^ 17.
-/
namespace GradientFallback

open Float.Model Float.Model.UnpackedFloat

/-! ## A number behind a mantissa -/

/-- Where the number `y` stands behind the whole number `m`. -/
def Located (m : ℕ) (y : ℚ) : Accuracy → Prop
  | .exact => y = m
  | .inexact .lt => m < y ∧ y < m + 1 / 2
  | .inexact .eq => y = m + 1 / 2
  | .inexact .gt => m + 1 / 2 < y ∧ y < m + 1

namespace Located

variable {m : ℕ} {y : ℚ} {a : Accuracy} {em : ExtendedMantissa}

theorem bounds (h : Located m y a) : (m : ℚ) ≤ y ∧ y < m + 1 := by
  rcases a with _ | (_ | _ | _) <;> simp only [Located] at h <;> constructor <;> linarith

/-- The nearest whole number is half a unit away at most. -/
theorem round (h : Located m y a) : |(a.roundToNearestEven m : ℚ) - y| ≤ 1 / 2 := by
  rw [abs_le]
  rcases a with _ | (_ | _ | _) <;> simp only [Located] at h <;>
    simp only [Accuracy.roundToNearestEven]
  · constructor <;> linarith
  · constructor <;> linarith
  · rcases Nat.mod_two_eq_zero_or_one m with heven | hodd
    · rw [heven, Nat.add_zero]
      constructor <;> linarith
    · rw [hodd, Nat.cast_add, Nat.cast_one]
      constructor <;> linarith
  · push_cast
    constructor <;> linarith

theorem ofMantissaAndAccuracy (h : Located m y a) :
    Located (ExtendedMantissa.ofMantissaAndAccuracy m a).mantissa y
      (ExtendedMantissa.ofMantissaAndAccuracy m a).accuracy := by
  rcases a with _ | (_ | _ | _) <;> exact h

/-- Where a quotient stands behind the whole part of it. -/
theorem accuracyOfFraction (n : ℕ) {d : ℕ} (hd : 0 < d) :
    Located (n / d) ((n : ℚ) / d) (accuracyOfFraction (n % d) d) := by
  have hd' : (0 : ℚ) < d := by exact_mod_cast hd
  obtain ⟨q, hq⟩ : ∃ q, q = n / d := ⟨_, rfl⟩
  obtain ⟨s, hs⟩ : ∃ s, s = n % d := ⟨_, rfl⟩
  have hlt : s < d := hs ▸ Nat.mod_lt n hd
  have hsplit : (n : ℚ) = d * q + s := by
    rw [hq, hs]
    exact_mod_cast (Nat.div_add_mod n d).symm
  have hquotient : (n : ℚ) / d = q + s / d := by
    rw [hsplit]
    field_simp
  rw [← hq, ← hs, hquotient, UnpackedFloat.accuracyOfFraction]
  split
  · next hzero => simp [Located, hzero]
  · next hzero =>
    have hs' : 0 < s := Nat.pos_of_ne_zero hzero
    have hpos : (0 : ℚ) < s / d := by positivity
    have hone : (s : ℚ) / d < 1 := by
      rw [div_lt_one hd']
      exact_mod_cast hlt
    rcases hcompare : compare (2 * s) d with _ | _ | _ <;> simp only [Located]
    · rw [Nat.compare_eq_lt] at hcompare
      have hbelow : (s : ℚ) / d < 1 / 2 := by
        rw [div_lt_div_iff₀ hd' two_pos]
        exact_mod_cast (by omega : s * 2 < 1 * d)
      constructor <;> linarith
    · rw [Nat.compare_eq_eq] at hcompare
      have hmiddle : (s : ℚ) / d = 1 / 2 := by
        rw [div_eq_div_iff hd'.ne' two_ne_zero]
        exact_mod_cast (by omega : s * 2 = 1 * d)
      linarith
    · rw [Nat.compare_eq_gt] at hcompare
      have habove : 1 / 2 < (s : ℚ) / d := by
        rw [div_lt_div_iff₀ two_pos hd']
        exact_mod_cast (by omega : 1 * d < s * 2)
      constructor <;> linarith

/-- The bit that is shifted out tells where half of the number stands. -/
theorem shiftRightOne (h : Located em.mantissa y em.accuracy) :
    Located em.shiftRightOne.mantissa (y / 2) em.shiftRightOne.accuracy := by
  obtain ⟨m, r, s⟩ := em
  have heven (n : ℕ) : ExtendedMantissa.shiftRightOne ⟨2 * n, r, s⟩ = ⟨n, false, r || s⟩ := by
    simp [ExtendedMantissa.shiftRightOne]
  have hodd (n : ℕ) : ExtendedMantissa.shiftRightOne ⟨2 * n + 1, r, s⟩ = ⟨n, true, r || s⟩ := by
    have hhalf : (2 * n + 1) / 2 = n := by omega
    simp [ExtendedMantissa.shiftRightOne, hhalf]
  rcases Nat.even_or_odd' m with ⟨n, rfl | rfl⟩
  · rw [heven]
    cases r <;> cases s <;>
      simp only [ExtendedMantissa.accuracy, Located, Bool.or_true, Bool.or_false] at h ⊢ <;>
      push_cast at h <;> first | linarith | constructor <;> linarith
  · rw [hodd]
    cases r <;> cases s <;>
      simp only [ExtendedMantissa.accuracy, Located, Bool.or_true, Bool.or_false] at h ⊢ <;>
      push_cast at h <;> first | linarith | constructor <;> linarith

theorem shiftRight (h : Located em.mantissa y em.accuracy) (k : ℕ) :
    Located (em >>> k).mantissa (y / 2 ^ k) (em >>> k).accuracy := by
  induction k with
  | zero =>
    rw [pow_zero, div_one]
    exact h
  | succ k ih =>
    have hstep := ih.shiftRightOne
    rw [div_div, ← pow_succ] at hstep
    exact hstep

end Located

theorem roundToNearestEven_bounds (m : ℕ) (a : Accuracy) :
    m ≤ a.roundToNearestEven m ∧ a.roundToNearestEven m ≤ m + 1 := by
  rcases a with _ | (_ | _ | _) <;> simp only [Accuracy.roundToNearestEven] <;> omega

theorem mantissa_shiftRight (em : ExtendedMantissa) (k : ℕ) :
    (em >>> k).mantissa = em.mantissa / 2 ^ k := by
  induction k with
  | zero => exact (Nat.div_one _).symm
  | succ k ih =>
    have hstep : (em >>> (k + 1)).mantissa = (em >>> k).mantissa / 2 := rfl
    rw [hstep, ih, Nat.div_div_eq_div_mul, pow_succ]

/-! ## Rounding -/

/-- A mantissa of 24 bits, or a shorter one at the smallest exponent. -/
structure IsCanonical (m : ℕ) (e : ℤ) : Prop where
  lt : m < 2 ^ 24
  low : -149 ≤ e
  full : 2 ^ 23 ≤ m ∨ e = -149

theorem targetExponent_totalExponent (m : ℕ) (e : ℤ) :
    Format.binary32.targetExponent (totalExponent m e) = max (m.log2 + e - 23) (-149) := by
  simp only [Format.targetExponent, totalExponent, Format.minExponent, Format.mantissaBits]
  push_cast
  omega

/-- A number below a power of two has its first bit below it. -/
theorem log2_add_lt {m : ℕ} {e : ℤ} {x : ℚ} {n : ℕ} (hm : m ≠ 0) (hle : m * (2 : ℚ) ^ e ≤ x)
    (hx : x < 2 ^ n) : m.log2 + e < n := by
  have hlog : ((2 : ℚ) ^ (m.log2 : ℤ)) ≤ m := by
    rw [zpow_natCast]
    exact_mod_cast Nat.log2_self_le hm
  have hpow : (2 : ℚ) ^ (m.log2 + e) < 2 ^ (n : ℤ) := by
    rw [zpow_add₀ two_ne_zero, zpow_natCast 2 n]
    calc (2 : ℚ) ^ (m.log2 : ℤ) * 2 ^ e ≤ m * 2 ^ e := by gcongr
      _ ≤ x := hle
      _ < 2 ^ n := hx
  exact (zpow_lt_zpow_iff_right₀ one_lt_two).1 hpow

/-- Shifting a mantissa that has enough bits leaves 24 of them. -/
theorem isCanonical_shift {m : ℕ} {e : ℤ} {a : Accuracy} {x : ℚ} (h : Located m (x / 2 ^ e) a)
    (hstart : 2 ^ 23 ≤ m ∨ e ≤ -149) (hx : x < 2 ^ 8) :
    ∃ em t, shiftToTargetExponent .binary32 m e a = (em, t) ∧
      Located em.mantissa (x / 2 ^ t) em.accuracy ∧ IsCanonical em.mantissa t ∧ t ≤ -16 := by
  obtain ⟨t, ht⟩ : ∃ t, t = max (m.log2 + e - 23) (-149) := ⟨_, rfl⟩
  have hlog : 2 ^ 23 ≤ m → 23 ≤ m.log2 := fun hm => (Nat.le_log2 (by omega)).2 hm
  -- The exponent never has to come down, so nothing but the right shift is left of the step.
  have hle : e ≤ t := by omega
  obtain ⟨k, hk⟩ : ∃ k : ℕ, t = e + k := ⟨(t - e).toNat, by omega⟩
  have hshift : shiftToTargetExponent .binary32 m e a =
      (ExtendedMantissa.ofMantissaAndAccuracy m a >>> k, t) := by
    have hamount : (t - e).toNat = k := by omega
    rw [shiftToTargetExponent, targetExponent_totalExponent, ← ht, shiftToExponent, hamount, hk]
  have hmantissa : (ExtendedMantissa.ofMantissaAndAccuracy m a >>> k).mantissa = m / 2 ^ k := by
    rw [mantissa_shiftRight]
    rcases a with _ | (_ | _ | _) <;> rfl
  have hlt : m < 2 ^ (m.log2 + 1) := Nat.lt_log2_self
  refine ⟨_, t, hshift, ?_, ⟨?_, by omega, ?_⟩, ?_⟩
  · have hlocated := h.ofMantissaAndAccuracy.shiftRight k
    rwa [div_div, ← zpow_natCast, ← zpow_add₀ two_ne_zero, ← hk] at hlocated
  · rw [hmantissa, Nat.div_lt_iff_lt_mul (by positivity), ← pow_add]
    exact hlt.trans_le (Nat.pow_le_pow_right two_pos (by omega))
  · rw [or_iff_not_imp_right, hmantissa, Nat.le_div_iff_mul_le (by positivity), ← pow_add]
    intro hlow
    have hbits : 23 + k = m.log2 := by omega
    have hm : m ≠ 0 := by
      rintro rfl
      simp at hbits
    rw [hbits]
    exact Nat.log2_self_le hm
  · by_cases hm : m = 0
    · have hzero : m.log2 = 0 := by rw [hm]; rfl
      omega
    · have htop := log2_add_lt hm ((le_div_iff₀ (by positivity)).1 h.bounds.1) hx
      omega

theorem shiftToTargetExponent_canonical {m : ℕ} {e : ℤ} (h : IsCanonical m e) :
    shiftToTargetExponent .binary32 m e .exact = (⟨m, false, false⟩, e) := by
  have hlog : m.log2 ≤ 23 := by
    by_cases hzero : m = 0
    · rw [hzero]
      decide
    · exact Nat.le_of_lt_succ ((Nat.log2_lt hzero).2 h.lt)
  have hlow := h.low
  have hamount : (max (m.log2 + e - 23) (-149) - e).toNat = 0 := by omega
  rw [shiftToTargetExponent, targetExponent_totalExponent, shiftToExponent, hamount, Nat.cast_zero,
    add_zero]
  rfl

/-- The shift after rounding drops nothing but a zero bit. -/
theorem isCanonical_shift_exact {r : ℕ} {t : ℤ} (hr : r ≤ 2 ^ 24) (hlow : -149 ≤ t)
    (hfull : 2 ^ 23 ≤ r ∨ t = -149) :
    ∃ em t', shiftToTargetExponent .binary32 r t .exact = (em, t') ∧
      IsCanonical em.mantissa t' ∧ (em.mantissa : ℚ) * 2 ^ t' = r * 2 ^ t := by
  rcases hr.lt_or_eq with hlt | rfl
  · exact ⟨_, _, shiftToTargetExponent_canonical ⟨hlt, hlow, hfull⟩, ⟨hlt, hlow, hfull⟩, rfl⟩
  · have hlog : Nat.log2 (2 ^ 24) = 24 := Nat.log2_two_pow
    have hamount : (max ((Nat.log2 (2 ^ 24) : ℤ) + t - 23) (-149) - t).toNat = 1 := by omega
    rw [shiftToTargetExponent, targetExponent_totalExponent, shiftToExponent, hamount]
    refine ⟨_, _, rfl, ⟨?_, by omega, .inl ?_⟩, ?_⟩
    · rw [mantissa_shiftRight]
      exact Nat.div_lt_self (by decide) (by decide)
    · rw [mantissa_shiftRight]
      exact le_refl (2 ^ 23)
    · rw [mantissa_shiftRight]
      have hhalf : (ExtendedMantissa.ofMantissaAndAccuracy (2 ^ 24) .exact).mantissa / 2 ^ 1 =
        2 ^ 23 := rfl
      rw [hhalf, Nat.cast_one, zpow_add₀ two_ne_zero]
      push_cast
      ring

/-- A number that needs no rounding is kept. -/
theorem roundWithAccuracy_canonical {m : ℕ} {e : ℤ} (pos : 0 < m) (h : IsCanonical m e) :
    roundWithAccuracy .binary32 .positive m e .exact = .finite .positive m e pos := by
  have hround : ExtendedMantissa.roundedMantissa ⟨m, false, false⟩ = m := rfl
  simp only [roundWithAccuracy, shiftToTargetExponent_canonical h, hround, dif_neg pos.ne']

/-- The number `x` but for one over 2 ^ 17. -/
inductive Near (x : ℚ) : UnpackedFloat → Prop
  | zero (sign : Sign) (hx : |x| ≤ 1 / 2 ^ 17) : Near x (.zero sign)
  | finite (m : ℕ) (e : ℤ) (pos : 0 < m) (canonical : IsCanonical m e)
      (hx : |m * 2 ^ e - x| ≤ 1 / 2 ^ 17) : Near x (.finite .positive m e pos)

/-- A rounded number below 256 has places behind its point. -/
theorem IsCanonical.exponent_lt {m : ℕ} {e : ℤ} {x : ℚ} (h : IsCanonical m e) (pos : 0 < m)
    (hnear : |m * 2 ^ e - x| ≤ 1 / 2 ^ 17) (hx : x < 2 ^ 8) : e < -14 := by
  have hle : m * (2 : ℚ) ^ e ≤ x + 1 / 2 ^ 17 := by linarith [(abs_le.1 hnear).2]
  have htop : m.log2 + e < (9 : ℕ) := log2_add_lt pos.ne' hle (by linarith)
  rcases h.full with hfull | hlow
  · have hlog : 23 ≤ m.log2 := (Nat.le_log2 pos.ne').2 hfull
    omega
  · omega

/-- Rounding a number below 256 leads near to it. -/
theorem near_roundWithAccuracy {m : ℕ} {e : ℤ} {a : Accuracy} {x : ℚ} (h : Located m (x / 2 ^ e) a)
    (hstart : 2 ^ 23 ≤ m ∨ e ≤ -149) (hx : x < 2 ^ 8) :
    Near x (roundWithAccuracy .binary32 .positive m e a) := by
  obtain ⟨em, t, hshift, hlocated, hcanonical, htop⟩ := isCanonical_shift h hstart hx
  have hround : |(em.roundedMantissa : ℚ) - x / 2 ^ t| ≤ 1 / 2 := hlocated.round
  have hbetween : em.mantissa ≤ em.roundedMantissa ∧ em.roundedMantissa ≤ em.mantissa + 1 :=
    roundToNearestEven_bounds _ _
  obtain ⟨em', t', hshift', hcanonical', hvalue⟩ :=
    isCanonical_shift_exact (hbetween.2.trans hcanonical.lt) hcanonical.low
      (hcanonical.full.imp_left fun hfull => hfull.trans hbetween.1)
  have hnear : |(em'.mantissa : ℚ) * 2 ^ t' - x| ≤ 1 / 2 ^ 17 := by
    have hscale : (em.roundedMantissa : ℚ) * 2 ^ t - x =
        (em.roundedMantissa - x / 2 ^ t) * 2 ^ t := by field_simp
    have hunit : (2 : ℚ) ^ t ≤ 2 ^ (-16 : ℤ) := zpow_le_zpow_right₀ one_le_two htop
    rw [hvalue, hscale, abs_mul, abs_of_pos (by positivity : (0 : ℚ) < 2 ^ t)]
    calc |(em.roundedMantissa : ℚ) - x / 2 ^ t| * 2 ^ t ≤ 1 / 2 * 2 ^ (-16 : ℤ) := by gcongr
      _ = 1 / 2 ^ 17 := by norm_num
  simp only [roundWithAccuracy, hshift, hshift']
  split
  · next hzero =>
    rw [hzero, Nat.cast_zero, zero_mul, zero_sub, abs_neg] at hnear
    exact .zero _ hnear
  · exact .finite _ _ _ hcanonical' hnear

/-! ## Products and quotients -/

section Arithmetic

variable {m₁ m₂ : ℕ} {e₁ e₂ : ℤ} {x : ℚ} (h₁ : 0 < m₁) (h₂ : 0 < m₂)

/-- A product is near if one of its factors has enough bits. -/
theorem near_mul (hvalue : x = m₁ * 2 ^ e₁ * (m₂ * 2 ^ e₂)) (hx : x < 2 ^ 8) (hfull : 2 ^ 23 ≤ m₁) :
    Near x (mul .binary32 (.finite .positive m₁ e₁ h₁) (.finite .positive m₂ e₂ h₂)) := by
  refine near_roundWithAccuracy ?_ (.inl ?_) hx
  · rw [hvalue, Located, zpow_add₀ two_ne_zero]
    push_cast
    field_simp
  · exact hfull.trans (Nat.le_mul_of_pos_right m₁ h₂)

/-- A quotient is near, as the dividend is widened until the quotient has enough bits. -/
theorem near_div (hvalue : x = m₁ * 2 ^ e₁ / (m₂ * 2 ^ e₂)) (hx : x < 2 ^ 8) :
    Near x (div .binary32 (.finite .positive m₁ e₁ h₁) (.finite .positive m₂ e₂ h₂)) := by
  have htarget : Format.binary32.targetExponent (totalExponent m₁ e₁ - totalExponent m₂ e₂) =
      max (m₁.log2 + e₁ - (m₂.log2 + e₂) - 24) (-149) := by
    simp only [Format.targetExponent, totalExponent, Format.minExponent, Format.mantissaBits]
    push_cast
    omega
  obtain ⟨e, he⟩ : ∃ e, e = min (e₁ - e₂) (max (m₁.log2 + e₁ - (m₂.log2 + e₂) - 24) (-149)) :=
    ⟨_, rfl⟩
  obtain ⟨k, hk⟩ : ∃ k : ℕ, e₁ - e₂ - e = k := ⟨(e₁ - e₂ - e).toNat, by omega⟩
  have hm : (2 : ℚ) ^ e ≠ 0 := by positivity
  have hdiv : div .binary32 (.finite .positive m₁ e₁ h₁) (.finite .positive m₂ e₂ h₂) =
      roundWithAccuracy .binary32 .positive ((m₁ <<< k) / m₂) e
        (UnpackedFloat.accuracyOfFraction ((m₁ <<< k) % m₂) m₂) := by
    simp only [UnpackedFloat.div, divCore, htarget, ← he, hk, Int.toNat_natCast]
    rfl
  rw [hdiv]
  refine near_roundWithAccuracy ?_ ?_ hx
  · have hquotient := Located.accuracyOfFraction (m₁ <<< k) h₂
    have hshift : x / 2 ^ e = ((m₁ <<< k : ℕ) : ℚ) / m₂ := by
      have hpow : (2 : ℚ) ^ e₁ = 2 ^ e₂ * 2 ^ e * 2 ^ k := by
        rw [← zpow_natCast, ← zpow_add₀ two_ne_zero, ← zpow_add₀ two_ne_zero]
        congr 1
        omega
      rw [hvalue, hpow, Nat.shiftLeft_eq]
      push_cast
      field_simp
    rwa [hshift]
  · -- Above the smallest exponent the shift makes up for the bits that the divisor takes.
    rw [or_iff_not_imp_right, not_le, Nat.le_div_iff_mul_le h₂, Nat.shiftLeft_eq]
    intro hlow
    have hm₂ : m₂ < 2 ^ (m₂.log2 + 1) := Nat.lt_log2_self
    have hm₁ : 2 ^ m₁.log2 ≤ m₁ := Nat.log2_self_le h₁.ne'
    calc 2 ^ 23 * m₂ ≤ 2 ^ 23 * 2 ^ (m₂.log2 + 1) := Nat.mul_le_mul_left _ hm₂.le
      _ = 2 ^ (23 + (m₂.log2 + 1)) := (pow_add ..).symm
      _ ≤ 2 ^ (m₁.log2 + k) := Nat.pow_le_pow_right two_pos (by omega)
      _ = 2 ^ m₁.log2 * 2 ^ k := pow_add ..
      _ ≤ m₁ * 2 ^ k := Nat.mul_le_mul_right _ hm₁

end Arithmetic

end GradientFallback
