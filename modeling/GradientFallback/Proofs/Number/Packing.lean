import GradientFallback.Proofs.Number.Rounding

/-! # Bits of binary numbers

The sign, the exponent and the mantissa of a binary number of 32 bits stand side by side in its bits.
So a rounded number comes back from the bits it is packed in, and its exact value is the one that the
bits are read as.
-/
namespace GradientFallback

open Float.Model Float.Model.UnpackedFloat

/-! ## Parts of the bits -/

section Parts

variable (b : BitVec Format.binary32.numBits)

theorem toNat_unpackMantissa : (@unpackMantissa .binary32 b).toNat = b.toNat % 2 ^ 23 := by
  simp [unpackMantissa]

theorem toNat_unpackExponent :
    (@unpackExponent .binary32 b).toNat = b.toNat / 2 ^ 23 % 2 ^ 8 := by
  simp [unpackExponent, Nat.shiftRight_eq_div_pow]

theorem toNat_unpackSign : (@unpackSign .binary32 b).toNat = b.toNat / 2 ^ 31 % 2 := by
  simp [unpackSign, Nat.shiftRight_eq_div_pow]

end Parts

/-- The exact value of a number taken apart. -/
def Binary.ofUnpacked? : UnpackedFloat → Option Binary
  | .finite sign m e _ => some ⟨sign == .negative, m, e⟩
  | .zero sign => some ⟨sign == .negative, 0, -149⟩
  | .infinity _ => none
  | .notANumber => none

/-- The bits are read as the value that they are taken apart into. -/
theorem Binary.ofFloat32?_eq (x : Float32) : ofFloat32? x = ofUnpacked? x.toModel.unpack := by
  obtain ⟨b, hb⟩ : ∃ b, b = x.toModel.toBits.toBitVec := ⟨_, rfl⟩
  have hbits : x.toBits.toNat = b.toNat := by rw [hb]; rfl
  have hunpack : x.toModel.unpack = UnpackedFloat.unpack .binary32 b := by rw [hb]; rfl
  have hmantissa : b.toNat % powerOfTwo 23 = _ := (toNat_unpackMantissa b).symm
  have hexponent : b.toNat / powerOfTwo 23 % powerOfTwo 8 = _ := (toNat_unpackExponent b).symm
  have hsign : (b.toNat / powerOfTwo (23 + 8) % 2 == 1) =
      (Sign.ofBitVec (@unpackSign .binary32 b) == .negative) := by
    have hbit : b.toNat / powerOfTwo (23 + 8) % 2 = _ := (toNat_unpackSign b).symm
    rw [hbit]
    generalize @unpackSign .binary32 b = s
    revert s
    decide
  rw [ofFloat32?, hbits, hunpack, UnpackedFloat.unpack, ofBits?, hmantissa, hexponent, hsign]
  dsimp only
  have hbias : ((2 : ℤ) - powerOfTwo (8 - 1) - (23 : ℕ)) = -149 := by decide
  have hbias' : ((Format.binary32.exponentBias : ℕ) + (23 : ℕ) : ℤ) = 150 := by decide
  rw [hbias, hbias']
  by_cases hlast : @unpackExponent .binary32 b = -1#8
  · have hvalue : (@unpackExponent .binary32 b).toNat = powerOfTwo 8 - 1 := by
      rw [hlast]
      rfl
    rw [if_pos hvalue, if_pos hlast]
    split <;> rfl
  · have hvalue : (@unpackExponent .binary32 b).toNat ≠ powerOfTwo 8 - 1 := fun h =>
      hlast (BitVec.eq_of_toNat_eq h)
    rw [if_neg hvalue, if_neg hlast]
    by_cases hfirst : @unpackExponent .binary32 b = 0#8
    · have hzero : (@unpackExponent .binary32 b).toNat = 0 := by
        rw [hfirst]
        rfl
      rw [if_pos hzero, if_pos hfirst]
      split
      · next hm =>
        rw [hm]
        rfl
      · simp only [ofUnpacked?, hzero]
        rfl
    · have hzero : (@unpackExponent .binary32 b).toNat ≠ 0 := fun h =>
        hfirst (BitVec.eq_of_toNat_eq h)
      rw [if_neg hzero, if_neg hfirst]
      have hhidden : (1#1 ++ @unpackMantissa .binary32 b).toNat =
          (@unpackMantissa .binary32 b).toNat + powerOfTwo 23 := by
        rw [BitVec.toNat_append, ← Nat.shiftLeft_add_eq_or_of_lt (BitVec.isLt _), Nat.add_comm]
        rfl
      have hshift : (-149 : ℤ) + (@unpackExponent .binary32 b).toNat - 1 =
          (@unpackExponent .binary32 b).toNat - 150 := by ring
      rw [hshift]
      simp only [ofUnpacked?, hhidden]

theorem Binary.unpack_of_ofFloat32? {x : Float32} {m : ℕ} {e : ℤ} (pos : 0 < m)
    (h : ofFloat32? x = some ⟨false, m, e⟩) : x.toModel.unpack = .finite .positive m e pos := by
  rw [ofFloat32?_eq] at h
  generalize x.toModel.unpack = u at h
  match u with
  | .finite .positive m' e' _ =>
    simp only [ofUnpacked?, Option.some.injEq, Binary.mk.injEq] at h
    obtain ⟨-, rfl, rfl⟩ := h
    rfl
  | .finite .negative m' e' _ =>
    have hsign : (Sign.negative == Sign.negative) = false :=
      congrArg Binary.negative (Option.some.inj h)
    exact absurd hsign (by decide)
  | .zero s =>
    simp only [ofUnpacked?, Option.some.injEq, Binary.mk.injEq] at h
    exact absurd h.2.1 pos.ne
  | .infinity s => exact absurd h nofun
  | .notANumber => exact absurd h nofun

/-! ## Packing a rounded number -/

/-- A number with a hidden bit. -/
theorem unpack_normal (s : Sign) {e : BitVec 8} (m : BitVec 23) (hlast : e ≠ -1#8) (hfirst : e ≠ 0#8) :
    UnpackedFloat.unpack .binary32 (packComponents .binary32 s e m) =
      .finite s (2 ^ 23 + m.toNat) (e.toNat - 150) (Nat.add_pos_left (by decide) _) := by
  have hhidden : (1#1 ++ m).toNat = 2 ^ 23 + m.toNat := by
    rw [BitVec.toNat_append, ← Nat.shiftLeft_add_eq_or_of_lt m.isLt]
    rfl
  have hbias : ((Format.binary32.exponentBias : ℕ) + (23 : ℕ) : ℤ) = 150 := by decide
  simp only [UnpackedFloat.unpack, unpackMantissa_packComponents, unpackExponent_packComponents,
    unpackSign_packComponents, Sign.ofBitVec_toBitVec, hbias, hhidden, if_neg hlast, if_neg hfirst]

/-- A number without a hidden bit. -/
theorem unpack_subnormal (s : Sign) {m : BitVec 23} (hm : 0 < m.toNat) :
    UnpackedFloat.unpack .binary32 (packComponents .binary32 s 0#8 m) = .finite s m.toNat (-149) hm := by
  have hne : m ≠ 0#23 := by
    rintro rfl
    exact absurd hm (by decide)
  have hbias : ((0#8).toNat : ℤ) - ((Format.binary32.exponentBias : ℕ) + (23 : ℕ)) + 1 = -149 := by
    decide
  have hlast : (0#8) ≠ -1#8 := by decide
  simp only [UnpackedFloat.unpack, unpackMantissa_packComponents, unpackExponent_packComponents,
    unpackSign_packComponents, Sign.ofBitVec_toBitVec, hbias, if_neg hlast, if_true, dif_neg hne]

/-- A rounded number comes back from its bits. -/
theorem unpack_pack {m : ℕ} {e : ℤ} (pos : 0 < m) (h : IsCanonical m e) (he : e ≤ 104) :
    (Float32.Model.pack (.finite .positive m e pos)).unpack = .finite .positive m e pos := by
  have hbiased : (e + Format.binary32.exponentBias + (23 : ℕ)).toNat = (e + 150).toNat := by
    have : ((Format.binary32.exponentBias : ℕ) : ℤ) = 127 := by decide
    omega
  have hlow := h.low
  have hlt := h.lt
  change UnpackedFloat.unpack .binary32 (UnpackedFloat.pack .binary32 (.finite .positive m e pos)) = _
  simp only [UnpackedFloat.pack, hbiased]
  rw [if_neg (by omega)]
  split
  · next hbits =>
    have hlog : m.log2 = 23 := by
      simp only [Format.mantissaBits] at hbits
      omega
    have hfull : 2 ^ 23 ≤ m := hlog ▸ Nat.log2_self_le pos.ne'
    have hexponent : (BitVec.ofNat 8 (e + 150).toNat).toNat = (e + 150).toNat := by
      rw [BitVec.toNat_ofNat, Nat.mod_eq_of_lt (by omega)]
    have hmantissa : (BitVec.ofNat 23 m).toNat = m - 2 ^ 23 := by
      rw [BitVec.toNat_ofNat]
      omega
    rw [unpack_normal]
    · simp only [hexponent, hmantissa, UnpackedFloat.finite.injEq, true_and]
      omega
    · intro hlast
      rw [hlast] at hexponent
      have : (-1#8).toNat = 255 := rfl
      omega
    · intro hfirst
      rw [hfirst] at hexponent
      have : (0#8).toNat = 0 := rfl
      omega
  · next hbits =>
    have hshort : m < 2 ^ 23 := by
      by_contra hfull
      have hlog : m.log2 = 23 := by
        rw [Nat.log2_eq_iff pos.ne']
        omega
      exact hbits (by rw [hlog]; rfl)
    have hmantissa : (BitVec.ofNat 23 m).toNat = m := by
      rw [BitVec.toNat_ofNat, Nat.mod_eq_of_lt hshort]
    rw [unpack_subnormal _ (by rw [hmantissa]; exact pos)]
    simp only [hmantissa, (h.full.resolve_left (by omega) : e = -149)]

/-- What is near a number below 256 comes back from its bits. -/
theorem Near.unpack_pack {x : ℚ} {u : UnpackedFloat} (h : Near x u) (hx : x < 2 ^ 8) :
    (Float32.Model.pack u).unpack = u := by
  cases h with
  | zero sign => cases sign <;> rfl
  | finite m e pos canonical hnear =>
    have hlt := canonical.exponent_lt pos hnear hx
    exact GradientFallback.unpack_pack pos canonical (by omega)

section Arithmetic

variable {a b : Float32} {m₁ m₂ : ℕ} {e₁ e₂ : ℤ} {x : ℚ} {h₁ : 0 < m₁} {h₂ : 0 < m₂}

theorem Near.of_pack {c : Float32} {u : UnpackedFloat} (hmodel : c.toModel = .pack u) (h : Near x u)
    (hx : x < 2 ^ 8) : Near x c.toModel.unpack := by
  rw [hmodel, h.unpack_pack hx]
  exact h

theorem near_float32_mul (ha : a.toModel.unpack = .finite .positive m₁ e₁ h₁)
    (hb : b.toModel.unpack = .finite .positive m₂ e₂ h₂) (hvalue : x = m₁ * 2 ^ e₁ * (m₂ * 2 ^ e₂))
    (hx : x < 2 ^ 8) (hfull : 2 ^ 23 ≤ m₁) : Near x (a * b).toModel.unpack := by
  have hmodel : (a * b).toModel =
    .pack (UnpackedFloat.mul .binary32 a.toModel.unpack b.toModel.unpack) := rfl
  rw [ha, hb] at hmodel
  exact .of_pack hmodel (near_mul h₁ h₂ hvalue hx hfull) hx

theorem near_float32_div (ha : a.toModel.unpack = .finite .positive m₁ e₁ h₁)
    (hb : b.toModel.unpack = .finite .positive m₂ e₂ h₂) (hvalue : x = m₁ * 2 ^ e₁ / (m₂ * 2 ^ e₂))
    (hx : x < 2 ^ 8) : Near x (a / b).toModel.unpack := by
  have hmodel : (a / b).toModel =
    .pack (UnpackedFloat.div .binary32 a.toModel.unpack b.toModel.unpack) := rfl
  rw [ha, hb] at hmodel
  exact .of_pack hmodel (near_div h₁ h₂ hvalue hx) hx

end Arithmetic

/-! ## Comparing -/

/-- Numbers are compared by what they are taken apart into. -/
theorem lt_iff_compare (a b : Float32) :
    a < b ↔ a.toModel.unpack.compare b.toModel.unpack = some .lt := by
  have hlt : a < b ↔ decide (a.toModel.unpack.lt b.toModel.unpack = true) = true := Iff.rfl
  rw [hlt, decide_eq_true_eq, UnpackedFloat.lt, beq_iff_eq]

end GradientFallback
