import GradientFallback.Color.Parser
import GradientFallback.Proofs.Text.SmallLetters
import GradientFallback.Proofs.Text.Trimming

/-! # Colors in hexadecimal digits

A byte comes back from the binary number of 32 bits that it is made into, and a pair of digits is
written as it was read, but for its capitals.  So a color of hexadecimal digits is written in the same
digits, with the alpha digits in front.
-/
namespace GradientFallback

/-! ## Digits and bytes -/

/-- The value of a digit is written as the digit, but for its capital. -/
theorem digitChar_digitValue {c : Char} (hc : isHexDigit c = true) :
    digitValue c < 16 ∧ Nat.digitChar (digitValue c) = c.toLower := by
  have hall : ∀ n < 103, isHexDigit (Char.ofNat n) = true →
      digitValue (Char.ofNat n) < 16 ∧
        Nat.digitChar (digitValue (Char.ofNat n)) = (Char.ofNat n).toLower := by decide
  have hlt : c.toNat < 103 := by
    have hle {low high : Char} (h : (low ≤ c && c ≤ high) = true) : c.toNat ≤ high.toNat :=
      UInt32.le_iff_toNat_le.1 (of_decide_eq_true (Bool.and_eq_true_iff.1 h).2)
    simp only [isHexDigit, isDigit, Bool.or_eq_true] at hc
    rcases hc with (hc | hc) | hc
    · exact (hle hc).trans_lt (by decide)
    · exact (hle hc).trans_lt (by decide)
    · exact (hle hc).trans_lt (by decide)
  have h := hall c.toNat hlt
  rw [Char.ofNat_toNat] at h
  exact h hc

theorem digitsValue_concat (base : Nat) (ds : List Char) (d : Char) :
    digitsValue base (ds ++ [d]) = digitsValue base ds * base + digitValue d := by
  rw [digitsValue, List.foldl_append]
  rfl

/-- Rounding finds the byte that a binary number was made of. -/
theorem byteOfFloat32_byte (n : Nat) : byteOfFloat32 (UInt8.ofNat n).toFloat32 = n % 256 := by
  have hall : ∀ b : Fin 256, byteOfFloat32 (UInt8.ofNat b).toFloat32 = b := by decide +kernel
  have hb := hall ⟨n % 256, Nat.mod_lt n (by decide)⟩
  have hofNat : UInt8.ofNat (n % 256) = UInt8.ofNat n := UInt8.ofNat_mod_size ..
  rw [← hofNat]
  exact hb

namespace Color

theorem hexByte_mod (n : Nat) : hexByte (n % 256) = hexByte n := by
  have hhigh : n % 256 / 16 % 16 = n / 16 % 16 := by omega
  have hlow : n % 256 % 16 = n % 16 := by omega
  rw [hexByte, hhigh, hlow, hexByte]

/-- A packed color is written byte by byte. -/
theorem argbText_ofPacked (rgb alpha : Nat) : (ofPacked rgb alpha).argbText =
    String.ofList ('#' :: (hexByte alpha ++ (hexByte (rgb / 65536) ++
      (hexByte (rgb / 256) ++ hexByte rgb)))) := by
  simp only [argbText, ofPacked, List.flatMap_cons, List.flatMap_nil, byteOfFloat32_byte,
    hexByte_mod, List.append_nil]

section Pairs

variable (front : List Char) {x y : Char}

/-- The last two digits of a number are its last byte. -/
theorem hexByte_digitsValue (hx : isHexDigit x = true) (hy : isHexDigit y = true) :
    hexByte (digitsValue 16 (front ++ [x, y])) = [x.toLower, y.toLower] := by
  obtain ⟨hxlt, hxchar⟩ := digitChar_digitValue hx
  obtain ⟨hylt, hychar⟩ := digitChar_digitValue hy
  have hvalue : digitsValue 16 (front ++ [x, y]) =
      (digitsValue 16 front * 16 + digitValue x) * 16 + digitValue y := by
    rw [← digitsValue_concat, ← digitsValue_concat, List.append_assoc, List.singleton_append]
  have hhigh : digitsValue 16 (front ++ [x, y]) / 16 % 16 = digitValue x := by omega
  have hlow : digitsValue 16 (front ++ [x, y]) % 16 = digitValue y := by omega
  rw [hexByte, hhigh, hlow, hxchar, hychar]

/-- Without its last two digits a number loses its last byte. -/
theorem digitsValue_div (hx : isHexDigit x = true) (hy : isHexDigit y = true) :
    digitsValue 16 (front ++ [x, y]) / 256 = digitsValue 16 front := by
  have hxlt := (digitChar_digitValue hx).1
  have hylt := (digitChar_digitValue hy).1
  have hvalue : digitsValue 16 (front ++ [x, y]) =
      (digitsValue 16 front * 16 + digitValue x) * 16 + digitValue y := by
    rw [← digitsValue_concat, ← digitsValue_concat, List.append_assoc, List.singleton_append]
  omega

end Pairs

/-! ## The notation -/

/-- Three, four, six or eight hexadecimal digits. -/
structure IsHexNotation (digits : List Char) : Prop where
  all : ∀ c ∈ digits, isHexDigit c = true
  length : digits.length = 3 ∨ digits.length = 4 ∨ digits.length = 6 ∨ digits.length = 8

/-- Each digit twice, if there are no more than four. -/
def longDigits (digits : List Char) : List Char :=
  if digits.length ≤ 4 then digits.flatMap fun c => [c, c] else digits

/-- The pair of alpha digits, solid if there are none, and the pairs of red, green and blue. -/
def argbDigits (digits : List Char) : List Char :=
  let long := longDigits digits
  (if long.length = 8 then long.drop 6 else ['f', 'f']) ++ long.take 6

theorem longDigits_of_le {digits : List Char} (h : digits.length ≤ 4) :
    longDigits digits = digits.flatMap fun c => [c, c] := if_pos h

theorem longDigits_of_lt {digits : List Char} (h : 4 < digits.length) :
    longDigits digits = digits := if_neg (by omega)

theorem length_longDigits (digits : List Char) : (longDigits digits).length =
    if digits.length ≤ 4 then digits.length * 2 else digits.length := by
  rw [longDigits]
  split
  · rw [List.length_flatMap]
    simp [List.map_const']
  · rfl

theorem isHexDigit_of_mem_longDigits {digits : List Char}
    (h : ∀ c ∈ digits, isHexDigit c = true) : ∀ c ∈ longDigits digits, isHexDigit c = true := by
  rw [longDigits]
  split
  · intro c hc
    obtain ⟨d, hd, hmem⟩ := List.mem_flatMap.1 hc
    have hcd : c = d := by simpa using hmem
    exact hcd ▸ h d hd
  · exact h

/-- What six digits pack is written in the same digits. -/
theorem argbText_six {six : List Char} (h : ∀ c ∈ six, isHexDigit c = true) (hsix : six.length = 6)
    (alpha : Nat) : (ofPacked (digitsValue 16 six) alpha).argbText =
      String.ofList ('#' :: (hexByte alpha ++ six.map Char.toLower)) := by
  obtain ⟨r, r', g, g', b, b', rfl⟩ : ∃ r r' g g' b b', six = [r, r', g, g', b, b'] := by
    match six, hsix with
    | [r, r', g, g', b, b'], _ => exact ⟨r, r', g, g', b, b', rfl⟩
  simp only [List.forall_mem_cons] at h
  obtain ⟨hr, hr', hg, hg', hb, hb', -⟩ := h
  have hblue := hexByte_digitsValue [r, r', g, g'] hb hb'
  have hgreen := hexByte_digitsValue [r, r'] hg hg'
  have hred := hexByte_digitsValue [] hr hr'
  have hrg := digitsValue_div [r, r', g, g'] hb hb'
  have hrgb := digitsValue_div [r, r'] hg hg'
  simp only [List.cons_append, List.nil_append] at hblue hgreen hred hrg hrgb
  have hshift : digitsValue 16 [r, r', g, g', b, b'] / 65536 = digitsValue 16 [r, r'] := by
    rw [← hrgb, ← hrg, Nat.div_div_eq_div_mul]
  rw [argbText_ofPacked, hshift, hrg, hred, hgreen, hblue]
  rfl

theorem ofHex?_eq_none {digits : List Char} (h : ¬IsHexNotation digits) : ofHex? digits = none := by
  unfold ofHex?
  split
  · next hall =>
    have hdigits : ∀ c ∈ digits, isHexDigit c = true := List.all_eq_true.1 hall
    split
    · next hlength => exact absurd ⟨hdigits, .inl hlength⟩ h
    · next hlength => exact absurd ⟨hdigits, .inr (.inl hlength)⟩ h
    · next hlength => exact absurd ⟨hdigits, .inr (.inr (.inl hlength))⟩ h
    · next hlength => exact absurd ⟨hdigits, .inr (.inr (.inr hlength))⟩ h
    · rfl
  · rfl

/-- The number that the long digits write holds the color, and alpha behind it if there are eight. -/
theorem ofHex?_eq_some {digits : List Char} (h : IsHexNotation digits) : ofHex? digits = some
    (if (longDigits digits).length = 8 then
      ofPacked (digitsValue 16 (longDigits digits) / 256) (digitsValue 16 (longDigits digits))
    else ofPacked (digitsValue 16 (longDigits digits)) 255) := by
  have hlong := length_longDigits digits
  rw [ofHex?, if_pos (List.all_eq_true.2 h.all)]
  rcases h.length with hlength | hlength | hlength | hlength <;> rw [hlength] at hlong ⊢
  · rw [if_neg (by rw [hlong]; decide), longDigits_of_le (by omega)]
    rfl
  · rw [if_pos (by rw [hlong]; rfl), longDigits_of_le (by omega)]
    rfl
  · rw [if_neg (by rw [hlong]; decide), longDigits_of_lt (by omega)]
    rfl
  · rw [if_pos (by rw [hlong]; rfl), longDigits_of_lt (by omega)]
    rfl

/-- A color of hexadecimal digits is written in the same digits. -/
theorem exists_ofHex? {digits : List Char} (h : IsHexNotation digits) : ∃ c,
    ofHex? digits = some c ∧
      c.argbText = String.ofList ('#' :: (argbDigits digits).map Char.toLower) := by
  have hhex := isHexDigit_of_mem_longDigits h.all
  have hlength : (longDigits digits).length = 6 ∨ (longDigits digits).length = 8 := by
    rw [length_longDigits]
    rcases h.length with hlength | hlength | hlength | hlength <;> rw [hlength] <;> decide
  refine ⟨_, ofHex?_eq_some h, ?_⟩
  rw [argbDigits]
  generalize longDigits digits = long at hhex hlength ⊢
  rcases hlength with hsix | height
  · rw [if_neg (by omega), if_neg (by omega), argbText_six hhex hsix, List.take_of_length_le hsix.le]
    rfl
  · obtain ⟨six, x, y, rfl, hsix⟩ : ∃ six x y, long = six ++ [x, y] ∧ six.length = 6 := by
      match long, height with
      | [r, r', g, g', b, b', x, y], _ => exact ⟨[r, r', g, g', b, b'], x, y, rfl, rfl⟩
    rw [List.forall_mem_append, List.forall_mem_cons, List.forall_mem_singleton] at hhex
    obtain ⟨hcolor, hx, hy⟩ := hhex
    rw [if_pos height, if_pos height, digitsValue_div six hx hy, argbText_six hcolor hsix,
      hexByte_digitsValue six hx hy, List.drop_left' hsix, List.take_left' hsix, List.map_append]
    rfl

/-! ## Reading the notation -/

theorem isHexNotation_toLower (digits : List Char) :
    IsHexNotation (digits.map Char.toLower) ↔ IsHexNotation digits := by
  have hall : (∀ c ∈ digits.map Char.toLower, isHexDigit c = true) ↔
      ∀ c ∈ digits, isHexDigit c = true := by
    simp only [List.forall_mem_map, isHexDigit_toLower]
  constructor
  · exact fun h => ⟨hall.1 h.all, by simpa using h.length⟩
  · exact fun h => ⟨hall.2 h.all, by simpa using h.length⟩

theorem argbDigits_toLower (digits : List Char) :
    (argbDigits (digits.map Char.toLower)).map Char.toLower =
      (argbDigits digits).map Char.toLower := by
  have hlong : longDigits (digits.map Char.toLower) = (longDigits digits).map Char.toLower := by
    simp only [longDigits, List.length_map, List.flatMap_map]
    split
    · rw [List.map_flatMap]
      rfl
    · rfl
  simp only [argbDigits, hlong, List.length_map, List.map_append, ← List.map_take, ← List.map_drop,
    map_toLower_toLower]
  split
  · rw [map_toLower_toLower]
  · rfl

/-- Behind a number sign nothing but the digits is left to be read. -/
theorem parse_sign {digits : String} (h : ∀ c ∈ digits.toList.getLast?, isBlank c = false) :
    parse ("#" ++ digits) = match ofHex? (digits.toList.map Char.toLower) with
      | some c => .ok c
      | none => .error (.unparseable ("#" ++ digits)) := by
  have htext : ("#" ++ digits).toList = '#' :: digits.toList := String.toList_append
  have htrimmed : IsTrimmed ('#' :: digits.toList) := by
    refine ⟨fun c hc => ?_, fun c hc => ?_⟩
    · cases hc
      rfl
    · rw [List.getLast?_cons] at hc
      cases hc
      cases hlast : digits.toList.getLast? with
      | none => rfl
      | some d => exact h d hlast
  rw [parse, htext, htrimmed.trim_eq]
  rfl

/-- A number sign and digits are a color exactly for three, four, six or eight hexadecimal digits.
The color is written in the small letters of the same digits, a single one twice, with the alpha
digits in front.  No other text behind the sign is a color. -/
theorem parse_hex (digits : String) (h : ∀ c ∈ digits.toList.getLast?, isBlank c = false) :
    ((∃ c, parse ("#" ++ digits) = .ok c) ↔ IsHexNotation digits.toList) ∧
      (∀ c, parse ("#" ++ digits) = .ok c →
        c.argbText = String.ofList ('#' :: (argbDigits digits.toList).map Char.toLower)) ∧
      (¬IsHexNotation digits.toList →
        parse ("#" ++ digits) = .error (.unparseable ("#" ++ digits))) := by
  rw [parse_sign h]
  by_cases hdigits : IsHexNotation digits.toList
  · obtain ⟨c, hc, htext⟩ := exists_ofHex? ((isHexNotation_toLower _).2 hdigits)
    rw [argbDigits_toLower] at htext
    rw [hc]
    refine ⟨iff_of_true ⟨c, rfl⟩ hdigits, fun d hd => ?_, fun hnot => absurd hdigits hnot⟩
    cases hd
    exact htext
  · rw [ofHex?_eq_none fun hsmall => hdigits ((isHexNotation_toLower _).1 hsmall)]
    exact ⟨iff_of_false nofun hdigits, nofun, fun _ => rfl⟩

/-- A capital is written small, and the alpha digit moves to the front. -/
theorem parse_hex_short : (∃ c, parse ("#" ++ "0F8a") = .ok c ∧ c.argbText = "#aa00ff88") ∧
    parse ("#" ++ "+f8") = .error (.unparseable "#+f8") := by
  have hshort := parse_hex "0F8a" fun c hc => by
    cases hc
    rfl
  have hplus := parse_hex "+f8" fun c hc => by
    cases hc
    rfl
  obtain ⟨c, hc⟩ := hshort.1.2 ⟨List.all_eq_true.1 (by decide), by decide⟩
  refine ⟨⟨c, hc, (hshort.2.1 c hc).trans (by decide)⟩, hplus.2.2 fun hhex => ?_⟩
  exact absurd (hhex.all '+' (by decide)) (by decide)

end Color
end GradientFallback
