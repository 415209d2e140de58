import GradientFallback.Proofs.Number.Packing

/-! # Decimals as binary numbers

A decimal below 256 is read as a binary number of 32 bits that differs from it by no more than one
over 2 ^ 17, so the byte it is rounded to is the nearest whole number but for that difference.
-/
namespace GradientFallback

open Float.Model Float.Model.UnpackedFloat

/-! ## Products with powers of ten -/

section PowersOfTen

variable {n : ℕ} {e : ℤ}

theorem lt_three_of_mul_pow_lt (hn : n ≠ 0) (hx : n * (10 : ℚ) ^ e < 2 ^ 8) : e < 3 := by
  have hone : (1 : ℚ) ≤ n := by exact_mod_cast Nat.pos_of_ne_zero hn
  have hpow : (10 : ℚ) ^ e < 10 ^ (3 : ℤ) := by
    calc (10 : ℚ) ^ e ≤ n * 10 ^ e := le_mul_of_one_le_left (by positivity) hone
      _ < 2 ^ 8 := hx
      _ < 10 ^ (3 : ℤ) := by norm_num
  exact (zpow_lt_zpow_iff_right₀ (by norm_num)).1 hpow

/-- A number that is nothing next to its power of ten. -/
theorem abs_mul_pow_le (hsmall : e + n.log2 + 1 < -200) : |(n : ℚ) * 10 ^ e| ≤ 1 / 2 ^ 17 := by
  have hn : (n : ℚ) ≤ 10 ^ ((n.log2 + 1 : ℕ) : ℤ) := by
    have hlt : n < 2 ^ (n.log2 + 1) := Nat.lt_log2_self
    have hle : n ≤ 10 ^ (n.log2 + 1) := hlt.le.trans (Nat.pow_le_pow_left (by decide) _)
    rw [zpow_natCast]
    exact_mod_cast hle
  rw [abs_of_nonneg (by positivity)]
  calc (n : ℚ) * 10 ^ e ≤ 10 ^ ((n.log2 + 1 : ℕ) : ℤ) * 10 ^ e := by gcongr
    _ = 10 ^ (e + n.log2 + 1) := by
      rw [← zpow_add₀ (by norm_num)]
      congr 1
      push_cast
      ring
    _ ≤ 10 ^ (-6 : ℤ) := zpow_le_zpow_right₀ (by norm_num) (by omega)
    _ ≤ 1 / 2 ^ 17 := by norm_num

/-- The slow way from a decimal to a binary number. -/
theorem near_ofScientific (hx : n * (10 : ℚ) ^ e < 2 ^ 8) :
    Near (n * 10 ^ e) (UnpackedFloat.ofScientific .binary32 n e) := by
  rw [UnpackedFloat.ofScientific]
  split
  · next hn =>
    refine .zero _ ?_
    rw [hn]
    norm_num
  next hn =>
  have htop := lt_three_of_mul_pow_lt hn hx
  rw [if_neg (by norm_num; omega)]
  split
  · next hsmall =>
    refine .zero _ (abs_mul_pow_le ?_)
    norm_num at hsmall
    omega
  split
  · next hnonneg =>
    have hbits : Format.binary32.mantissaBits = 24 := rfl
    have hpow : (10 : ℚ) ^ e = 10 ^ e.toNat := by
      rw [← zpow_natCast, Int.toNat_of_nonneg hnonneg]
    refine near_mul _ _ ?_ hx ?_
    · rw [hpow, hbits, Nat.shiftLeft_eq]
      push_cast
      norm_num
      ring
    · rw [hbits, Nat.shiftLeft_eq]
      omega
  · next hneg =>
    have hpow : (10 : ℚ) ^ e = (10 ^ (-e).toNat)⁻¹ := by
      rw [← zpow_natCast, Int.toNat_of_nonneg (by omega), zpow_neg, inv_inv]
    refine near_div _ _ ?_ hx
    rw [hpow]
    push_cast
    norm_num [div_eq_mul_inv]

/-! ## Small whole numbers -/

/-- A whole number with its first bit moved to the place of the hidden one. -/
def widened (n : ℕ) : ℕ := n * 2 ^ (23 - n.log2)

section Widened

variable (pos : 0 < n) (hn : n < 2 ^ 23)
include pos hn

theorem log2_le : n.log2 ≤ 22 := Nat.le_of_lt_succ ((Nat.log2_lt pos.ne').2 hn)

theorem le_widened : 2 ^ 23 ≤ widened n := by
  have hlog := log2_le pos hn
  calc 2 ^ 23 = 2 ^ n.log2 * 2 ^ (23 - n.log2) := by rw [← pow_add]; congr 1; omega
    _ ≤ widened n := Nat.mul_le_mul_right _ (Nat.log2_self_le pos.ne')

theorem widened_lt : widened n < 2 ^ 24 := by
  have hlog := log2_le pos hn
  calc widened n < 2 ^ (n.log2 + 1) * 2 ^ (23 - n.log2) :=
        Nat.mul_lt_mul_of_pos_right Nat.lt_log2_self (by positivity)
    _ = 2 ^ 24 := by rw [← pow_add]; congr 1; omega

theorem widened_value : (widened n : ℚ) * 2 ^ ((n.log2 : ℤ) - 23) = n := by
  have hlog := log2_le pos hn
  have hcancel : (2 : ℚ) ^ (23 - n.log2) * 2 ^ ((n.log2 : ℤ) - 23) = 1 := by
    have hsum : ((23 - n.log2 : ℕ) : ℤ) + (n.log2 - 23) = 0 := by omega
    rw [← zpow_natCast, ← zpow_add₀ two_ne_zero, hsum, zpow_zero]
  rw [widened]
  push_cast
  rw [mul_assoc, hcancel, mul_one]

/-- A number of less than 24 bits is kept as it is. -/
theorem unpack_toFloat32 : ∃ hpos, n.toUInt64.toFloat32.toModel.unpack =
    .finite .positive (widened n) (n.log2 - 23) hpos := by
  have hlog := log2_le pos hn
  have hwide := le_widened pos hn
  have hpos : 0 < widened n := by omega
  have hcanonical : IsCanonical (widened n) (n.log2 - 23) :=
    ⟨widened_lt pos hn, by omega, .inl hwide⟩
  have htoNat : n.toUInt64.toNat = n := by
    rw [Nat.toUInt64_eq, UInt64.toNat_ofNat']
    omega
  have hround : UnpackedFloat.ofUInt64 .binary32 n.toUInt64 =
      .finite .positive (widened n) (n.log2 - 23) hpos := by
    have hcompare : compare (n : ℤ) 0 = .gt := compare_gt_iff_gt.2 (by omega)
    have htarget : (max ((n.log2 : ℤ) + 0 - 23) (-149)) = n.log2 - 23 := by omega
    have hamount : (0 - ((n.log2 : ℤ) - 23)).toNat = 23 - n.log2 := by omega
    have hexponent : (0 : ℤ) - (23 - n.log2 : ℕ) = n.log2 - 23 := by omega
    rw [UnpackedFloat.ofUInt64, UnpackedFloat.ofNat, UnpackedFloat.ofInt, htoNat,
      UnpackedFloat.normalize, hcompare]
    simp only [UnpackedFloat.round, Int.toNat_natCast, targetExponent_totalExponent, htarget,
      decreaseExponent, hamount, hexponent, Nat.shiftLeft_eq]
    exact roundWithAccuracy_canonical hpos hcanonical
  have hmodel : n.toUInt64.toFloat32.toModel =
    .pack (UnpackedFloat.ofUInt64 .binary32 n.toUInt64) := rfl
  exact ⟨hpos, by rw [hmodel, hround, unpack_pack hpos hcanonical (by omega)]⟩

end Widened

/-- The table of powers of ten is exact. -/
theorem unpack_powerOfTen {k : ℕ} (hk : k < Float32.exactlyRepresentablePowersOfTen.size) :
    ∃ m e pos, Float32.exactlyRepresentablePowersOfTen[k].toModel.unpack = .finite .positive m e pos ∧
      (m : ℚ) * 2 ^ e = 10 ^ k := by
  have hall : ∀ k : Fin 11, ∃ b ∈ Binary.ofFloat32? Float32.exactlyRepresentablePowersOfTen[k],
      b.negative = false ∧ 0 < b.mantissa ∧ -23 ≤ b.exponent ∧
        b.mantissa * 2 ^ (b.exponent + 23).toNat = 10 ^ k.val * 2 ^ 23 := by
    decide +kernel
  obtain ⟨⟨negative, m, e⟩, hread, rfl, pos, hlow, hvalue⟩ := hall ⟨k, hk⟩
  dsimp only at pos hlow hvalue
  refine ⟨m, e, pos, Binary.unpack_of_ofFloat32? pos hread, ?_⟩
  have hshift : (2 : ℚ) ^ e = 2 ^ (e + 23).toNat / 2 ^ 23 := by
    rw [eq_div_iff (by positivity), ← zpow_natCast 2 (e + 23).toNat, Int.toNat_of_nonneg (by omega),
      zpow_add₀ two_ne_zero]
    rfl
  rw [hshift, mul_div_assoc', div_eq_iff (by positivity)]
  exact_mod_cast hvalue

/-- Both ways from a decimal to a binary number lead near the decimal. -/
theorem near_float32_ofScientific (pos : 0 < n) (hx : n * (10 : ℚ) ^ e < 2 ^ 8) :
    Near (n * 10 ^ e) (Float32.ofScientific n (e < 0) e.natAbs).toModel.unpack := by
  rw [Float32.ofScientific]
  split
  · next hfast =>
    obtain ⟨hn, hunpack⟩ := unpack_toFloat32 pos hfast.1
    have hvalue := widened_value pos hfast.1
    have hsize : Float32.exactlyRepresentablePowersOfTen.size = 11 := rfl
    obtain ⟨m, t, hm, hten, hpower⟩ := unpack_powerOfTen (k := e.natAbs) (by omega)
    -- Both numbers are exact here, so nothing is rounded but their quotient or product.
    dsimp only
    split
    · next hneg =>
      have he := of_decide_eq_true hneg
      have hpow : (10 : ℚ) ^ e = (10 ^ e.natAbs)⁻¹ := by
        rw [← zpow_natCast, ← zpow_neg]
        congr 1
        omega
      exact near_float32_div hunpack hten (by rw [hvalue, hpower, hpow, div_eq_mul_inv]) hx
    · next hneg =>
      have he : ¬e < 0 := fun h => hneg (decide_eq_true h)
      have hpow : (10 : ℚ) ^ e = 10 ^ e.natAbs := by
        rw [← zpow_natCast]
        congr 1
        omega
      exact near_float32_mul hunpack hten (by rw [hvalue, hpower, hpow]) hx (le_widened pos hfast.1)
  · have hexponent : (if decide (e < 0) = true then Int.negOfNat e.natAbs else Int.ofNat e.natAbs) =
        e := by
      simp only [decide_eq_true_eq, Int.negOfNat_eq, Int.ofNat_eq_natCast]
      split <;> omega
    have hmodel : Float32.Model.ofScientific n e =
      .pack (UnpackedFloat.ofScientific .binary32 n e) := rfl
    have hnear := near_ofScientific hx
    dsimp only
    rw [hexponent, hmodel, hnear.unpack_pack hx]
    exact hnear

end PowersOfTen

/-! ## Decimals -/

namespace Decimal

/-- The number that a decimal writes. -/
def value (d : Decimal) : ℚ := (if d.negative then -1 else 1) * (d.digits * 10 ^ d.exponent)

/-- A decimal below 256 is read as a number near to it. -/
theorem near_toFloat32 {d : Decimal} (low : 0 ≤ d.value) (high : d.value < 2 ^ 8) :
    Near d.value d.toFloat32.toModel.unpack := by
  obtain ⟨negative, n, e⟩ := d
  by_cases hn : n = 0
  · subst hn
    have hvalue : value ⟨negative, 0, e⟩ = 0 := by simp [value]
    have hzero (sign : Sign) : Near 0 (.zero sign) := .zero sign (by rw [abs_zero]; positivity)
    have hread : toFloat32 ⟨negative, 0, e⟩ = if negative then -0 else 0 := by
      simp [toFloat32, isHuge, isTiny]
    rw [hvalue, hread]
    cases negative
    · exact hzero .positive
    · exact hzero .negative
  · have hpos : (0 : ℚ) < n * 10 ^ e := by
      have : 0 < n := Nat.pos_of_ne_zero hn
      positivity
    cases negative with
    | true =>
      simp only [value, if_true] at low
      linarith
    | false =>
      have hvalue : value ⟨false, n, e⟩ = n * 10 ^ e := by simp [value]
      rw [hvalue] at high ⊢
      have htop := lt_three_of_mul_pow_lt hn high
      have hhuge : isHuge ⟨false, n, e⟩ = false := by
        simp [isHuge, largestPower]
        omega
      by_cases htiny : isTiny ⟨false, n, e⟩ = true
      · have hzero : toFloat32 ⟨false, n, e⟩ = 0 := by simp [toFloat32, hhuge, htiny]
        have hsmall : e + n.log2 + 1 < -400 :=
          of_decide_eq_true ((Bool.or_eq_true_iff.1 htiny).resolve_left (by simpa using hn))
        rw [hzero]
        exact Near.zero .positive (abs_mul_pow_le (by omega))
      · have hread : toFloat32 ⟨false, n, e⟩ = Float32.ofScientific n (e < 0) e.natAbs := by
          simp [toFloat32, hhuge, htiny]
        rw [hread]
        exact near_float32_ofScientific (Nat.pos_of_ne_zero hn) high

end Decimal

/-! ## Bytes -/

/-- A number below one is rounded up from a half on. -/
theorem Binary.abs_roundSize_sub (m : ℕ) {e : ℤ} (he : e < 0) (negative : Bool) :
    |((roundSize ⟨negative, m, e⟩ : ℕ) : ℚ) - m * 2 ^ e| ≤ 1 / 2 := by
  obtain ⟨k, hk⟩ : ∃ k : ℕ, e = -k := ⟨e.natAbs, by omega⟩
  have hunit : powerOfTwo e.natAbs = 2 ^ k := by
    rw [hk, Int.natAbs_neg, Int.natAbs_natCast]
    rfl
  have hpos : (0 : ℚ) < 2 ^ k := by positivity
  have hfloor := Nat.div_add_mod (2 * m + 2 ^ k) (2 * 2 ^ k)
  have hrest := Nat.mod_lt (2 * m + 2 ^ k) (by positivity : 0 < 2 * 2 ^ k)
  have hround : roundSize ⟨negative, m, e⟩ = (2 * m + 2 ^ k) / (2 * 2 ^ k) := by
    rw [roundSize, if_neg (not_le.2 he)]
    dsimp only
    rw [hunit]
  rw [hround]
  generalize (2 * m + 2 ^ k) / (2 * 2 ^ k) = q at hfloor
  generalize (2 * m + 2 ^ k) % (2 * 2 ^ k) = r at hfloor hrest
  have hsplit : (2 * 2 ^ k * q + r : ℚ) = 2 * m + 2 ^ k := by exact_mod_cast hfloor
  have hlt : (r : ℚ) < 2 * 2 ^ k := by exact_mod_cast hrest
  have hr : (0 : ℚ) ≤ r := Nat.cast_nonneg r
  have hdiff : (q : ℚ) - m * 2 ^ e = (2 ^ k - r) / (2 * 2 ^ k) := by
    rw [hk, zpow_neg, zpow_natCast, eq_div_iff (by positivity)]
    field_simp
    linarith
  rw [hdiff, abs_div, abs_of_pos (by positivity : (0 : ℚ) < 2 * 2 ^ k), div_le_iff₀ (by positivity),
    abs_le]
  constructor <;> linarith

/-- The byte is the nearest whole number, but for the rounding of the binary number. -/
theorem Near.byteOfFloat32 {x : ℚ} {f : Float32} (h : Near x f.toModel.unpack) (hx : x ≤ 255) :
    |(byteOfFloat32 f : ℚ) - x| ≤ 1 / 2 + 1 / 2 ^ 17 := by
  rw [GradientFallback.byteOfFloat32, Binary.ofFloat32?_eq]
  generalize f.toModel.unpack = u at h
  cases h with
  | zero sign hnear =>
    have hbyte : (if sign == .negative then 0
        else min (Binary.roundSize ⟨sign == .negative, 0, -149⟩) 255) = 0 := by
      cases sign <;> decide
    simp only [Binary.ofUnpacked?]
    rw [hbyte, Nat.cast_zero, zero_sub, abs_neg]
    linarith
  | finite m e pos canonical hnear =>
    have he := canonical.exponent_lt pos hnear (by linarith)
    have hround := Binary.abs_roundSize_sub m (by omega : e < 0) false
    have hle : Binary.roundSize ⟨false, m, e⟩ ≤ 255 := by
      have hlt : ((Binary.roundSize ⟨false, m, e⟩ : ℕ) : ℚ) < 256 := by
        linarith [(abs_le.1 hround).2, (abs_le.1 hnear).2]
      exact Nat.le_of_lt_succ (by exact_mod_cast hlt)
    have hsign : (Sign.positive == Sign.negative) = false := by decide
    simp only [Binary.ofUnpacked?, hsign]
    rw [if_neg Bool.false_ne_true, min_eq_left hle]
    calc |((Binary.roundSize ⟨false, m, e⟩ : ℕ) : ℚ) - x|
        ≤ |((Binary.roundSize ⟨false, m, e⟩ : ℕ) : ℚ) - m * 2 ^ e| + |m * 2 ^ e - x| :=
          abs_sub_le ..
      _ ≤ 1 / 2 + 1 / 2 ^ 17 := add_le_add hround hnear

end GradientFallback
