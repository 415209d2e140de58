import GradientFallback.Number.Decimal
import GradientFallback.Text.Blank
import GradientFallback.Text.Letters
import GradientFallback.Text.Source
import Mathlib.Data.List.TakeDrop

/-! # Making letters small

Making ASCII capitals small changes no other character.  Whatever is asked of a character is asked of
the capitals one by one, so line ends, blanks and digits are where they were, and numerals have the
same value.
-/
namespace GradientFallback

/-- The ASCII capitals. -/
def capitals : List Char := (List.range 26).map fun n => Char.ofNat (65 + n)

theorem toLower_eq_self {c : Char} (hc : c ∉ capitals) : c.toLower = c := by
  refine dif_neg fun hupper => hc ?_
  obtain ⟨hlow, hhigh⟩ : 65 ≤ c.toNat ∧ c.toNat ≤ 90 := by
    exact ⟨UInt32.le_iff_toNat_le.1 hupper.1, UInt32.le_iff_toNat_le.1 hupper.2⟩
  refine List.mem_map.2 ⟨c.toNat - 65, List.mem_range.2 (by omega), ?_⟩
  rw [Nat.add_sub_cancel' hlow, Char.ofNat_toNat]

/-- What does not tell the capitals from the small letters does not see the case of any letter. -/
theorem apply_toLower {α : Type} {f : Char → α}
    (h : capitals.map (fun c => f c.toLower) = capitals.map f) (c : Char) : f c.toLower = f c := by
  by_cases hc : c ∈ capitals
  · exact List.map_inj_left.1 h c hc
  · rw [toLower_eq_self hc]

@[simp] theorem toLower_toLower (c : Char) : c.toLower.toLower = c.toLower :=
  apply_toLower (f := Char.toLower) (by decide) c

@[simp] theorem isBlank_toLower (c : Char) : isBlank c.toLower = isBlank c :=
  apply_toLower (by decide) c

@[simp] theorem isDigit_toLower (c : Char) : isDigit c.toLower = isDigit c :=
  apply_toLower (by decide) c

@[simp] theorem isHexDigit_toLower (c : Char) : isHexDigit c.toLower = isHexDigit c :=
  apply_toLower (by decide) c

@[simp] theorem digitValue_toLower (c : Char) : digitValue c.toLower = digitValue c :=
  apply_toLower (by decide) c

theorem isHexDigit_of_isBlank {c : Char} (hc : isBlank c = true) : isHexDigit c = false := by
  have hhex : isHexDigit c = true ↔ ((48 ≤ c.toNat ∧ c.toNat ≤ 57) ∨
      (97 ≤ c.toNat ∧ c.toNat ≤ 102)) ∨ (65 ≤ c.toNat ∧ c.toNat ≤ 70) := by
    simp only [isHexDigit, isDigit, Bool.or_eq_true, Bool.and_eq_true, decide_eq_true_eq,
      Char.le_def, UInt32.le_iff_toNat_le]
    rfl
  simp only [isBlank, Bool.or_eq_true, Bool.and_eq_true, decide_eq_true_eq, beq_iff_eq] at hc
  rw [← Bool.not_eq_true, hhex]
  omega

theorem isDigit_of_isBlank {c : Char} (hc : isBlank c = true) : isDigit c = false := by
  have hhex := isHexDigit_of_isBlank hc
  rw [isHexDigit, Bool.or_eq_false_iff, Bool.or_eq_false_iff] at hhex
  exact hhex.1.1

/-- Characters other than letters are found where they were. -/
theorem toLower_eq_iff {c d : Char} (hd : isLetter d = false) : c.toLower = d ↔ c = d := by
  have hsame : isLetter c.toLower = isLetter c := apply_toLower (by decide) c
  have hcapital : ∀ c ∈ capitals, isLetter c = true := List.all_eq_true.1 (by decide)
  constructor
  · intro h
    rw [h, hd] at hsame
    rw [← h, toLower_eq_self fun hc => by simp [hcapital c hc] at hsame]
  · rintro rfl
    exact toLower_eq_self fun hc => by simp [hcapital c hc] at hd

/-! ## Texts -/

section Texts

variable (cs : List Char)

@[simp] theorem map_toLower_toLower :
    (cs.map Char.toLower).map Char.toLower = cs.map Char.toLower := by
  rw [List.map_map]
  exact List.map_congr_left fun c _ => toLower_toLower c

theorem head?_map_toLower {d : Char} (hd : isLetter d = false) :
    (cs.map Char.toLower).head? = some d ↔ cs.head? = some d := by
  cases cs <;> simp [toLower_eq_iff hd]

theorem takeWhile_toLower {p : Char → Bool} (h : ∀ c, p c.toLower = p c) :
    (cs.map Char.toLower).takeWhile p = (cs.takeWhile p).map Char.toLower := by
  rw [List.takeWhile_map, show p ∘ Char.toLower = p from funext h]

theorem dropWhile_toLower {p : Char → Bool} (h : ∀ c, p c.toLower = p c) :
    (cs.map Char.toLower).dropWhile p = (cs.dropWhile p).map Char.toLower := by
  rw [List.dropWhile_map, show p ∘ Char.toLower = p from funext h]

@[simp] theorem digitsValue_toLower (base : Nat) :
    digitsValue base (cs.map Char.toLower) = digitsValue base cs := by
  simp only [digitsValue, List.foldl_map, digitValue_toLower]

@[simp] theorem unifyLineEnds_toLower :
    unifyLineEnds (cs.map Char.toLower) = (unifyLineEnds cs).map Char.toLower := by
  induction cs with
  | nil => rfl
  | cons c cs ih =>
    simp only [List.map_cons, unifyLineEnds, toLower_eq_iff (d := '\r') rfl,
      head?_map_toLower cs (d := '\n') rfl, ih]
    split <;> rfl

@[simp] theorem trim_toLower : trim (cs.map Char.toLower) = (trim cs).map Char.toLower := by
  have hend (ds : List Char) : trimEnd (ds.map Char.toLower) = (trimEnd ds).map Char.toLower := by
    simp only [trimEnd]
    induction ds with
    | nil => rfl
    | cons d ds ih =>
      simp only [List.map_cons, dropTrailing_cons, ih, List.isEmpty_map, isBlank_toLower]
      split <;> rfl
  rw [trim, trimStart, dropWhile_toLower cs isBlank_toLower, hend]
  rfl

@[simp] theorem lowerCase_ofList :
    lowerCase (String.ofList cs) = String.ofList (cs.map Char.toLower) := by
  simp [lowerCase]

@[simp] theorem lowerCase_lowerCase (s : String) : lowerCase (lowerCase s) = lowerCase s := by
  simp only [lowerCase, String.toList_ofList, map_toLower_toLower]

theorem sameLetters_congr {s t : String} (h : lowerCase s = lowerCase t) (u : String) :
    sameLetters s u = sameLetters t u := by
  rw [sameLetters, sameLetters, h]

end Texts

/-! ## Numerals -/

namespace Decimal

theorem sign_toLower (cs : List Char) :
    sign (cs.map Char.toLower) = ((sign cs).1, (sign cs).2.map Char.toLower) := by
  have hcons (c : Char) (cs : List Char) : sign (c :: cs) =
      if c = '+' then (false, cs) else if c = '-' then (true, cs) else (false, c :: cs) := by
    unfold sign
    split <;> simp_all
  cases cs with
  | nil => rfl
  | cons c cs =>
    rw [List.map_cons, hcons, hcons]
    simp only [toLower_eq_iff (d := '+') rfl, toLower_eq_iff (d := '-') rfl]
    split
    · rfl
    · split <;> rfl

theorem exponent?_toLower (cs : List Char) : exponent? (cs.map Char.toLower) = exponent? cs := by
  cases cs with
  | nil => rfl
  | cons e cs =>
    have hall (ds : List Char) : (ds.map Char.toLower).all isDigit = ds.all isDigit := by
      simp [List.all_map, Function.comp_def]
    simp only [List.map_cons, exponent?, sign_toLower, toLower_toLower, ne_eq, List.map_eq_nil_iff,
      hall, digitsValue_toLower]

theorem fraction_toLower (cs : List Char) : fraction (cs.map Char.toLower) =
    ((fraction cs).1.map Char.toLower, (fraction cs).2.map Char.toLower) := by
  have hcons (c : Char) (cs : List Char) : fraction (c :: cs) =
      if c = '.' then (cs.takeWhile isDigit, cs.dropWhile isDigit) else ([], c :: cs) := by
    unfold fraction
    split <;> simp_all [List.span_eq_takeWhile_dropWhile]
  cases cs with
  | nil => rfl
  | cons c cs =>
    rw [List.map_cons, hcons, hcons]
    simp only [toLower_eq_iff (d := '.') rfl, takeWhile_toLower _ isDigit_toLower,
      dropWhile_toLower _ isDigit_toLower]
    split <;> rfl

theorem unsigned?_toLower (negative : Bool) (cs : List Char) :
    unsigned? negative (cs.map Char.toLower) = unsigned? negative cs := by
  simp only [unsigned?, List.span_eq_takeWhile_dropWhile, takeWhile_toLower _ isDigit_toLower,
    dropWhile_toLower _ isDigit_toLower, fraction_toLower, List.map_eq_nil_iff, exponent?_toLower,
    ← List.map_append, digitsValue_toLower, List.length_map]

end Decimal

/-- The case of the letter in front of an exponent does not matter. -/
theorem Numeral.read?_toLower (cs : List Char) : read? (cs.map Char.toLower) = read? cs := by
  simp only [read?, Decimal.sign_toLower, map_toLower_toLower, Decimal.unsigned?_toLower]

end GradientFallback
