import GradientFallback.Proofs.Text.SmallLetters
import Mathlib.Data.List.TakeWhile

/-! # The characters of numerals

A numeral is written with digits, signs, a point and the letters of an exponent or of a word.  A text
with another character in it is no numeral.
-/
namespace GradientFallback

/-- The characters that may stand in a numeral. -/
def Numeral.allows (c : Char) : Bool := isDigit c || c.toLower ∈ "+-.einftya".toList

@[simp] theorem Numeral.allows_toLower (c : Char) : allows c.toLower = allows c :=
  apply_toLower (by decide) c

theorem Numeral.isDigit_of_foreign {c : Char} (hc : allows c = false) : isDigit c = false :=
  (Bool.or_eq_false_iff.1 hc).1

theorem Numeral.ne_of_allows {c d : Char} (hc : allows c = false) (hd : allows d = true) :
    c ≠ d := by
  rintro rfl
  rw [hc] at hd
  exact Bool.false_ne_true hd

theorem Numeral.isBlank_of_allows {c : Char} (hc : allows c = true) : isBlank c = false := by
  rw [Bool.eq_false_iff]
  intro hblank
  rcases Bool.or_eq_true_iff.1 hc with hdigit | hother
  · rw [isDigit_of_isBlank hblank] at hdigit
    exact Bool.false_ne_true hdigit
  · have hall : "+-.einftya".toList.all (fun d => !isBlank d) = true := by decide
    have hnone := List.all_eq_true.1 hall c.toLower (of_decide_eq_true hother)
    rw [isBlank_toLower, hblank] at hnone
    exact Bool.false_ne_true hnone

/-! ## A foreign character is left over by every part of a numeral -/

namespace Decimal

variable {c : Char} (hc : Numeral.allows c = false) {cs : List Char}
include hc

theorem mem_sign (h : c ∈ cs) : c ∈ (sign cs).2 := by
  unfold sign
  split
  · exact List.mem_of_ne_of_mem (Numeral.ne_of_allows hc (by decide)) h
  · exact List.mem_of_ne_of_mem (Numeral.ne_of_allows hc (by decide)) h
  · exact h

theorem mem_dropWhile_isDigit (h : c ∈ cs) : c ∈ cs.dropWhile isDigit := by
  rw [← List.takeWhile_append_dropWhile (p := isDigit) (l := cs)] at h
  rcases List.mem_append.1 h with h | h
  · have hdigit := List.mem_takeWhile_imp h
    rw [Numeral.isDigit_of_foreign hc] at hdigit
    exact absurd hdigit Bool.false_ne_true
  · exact h

theorem mem_fraction (h : c ∈ cs) : c ∈ (fraction cs).2 := by
  unfold fraction
  split
  · rw [List.span_eq_takeWhile_dropWhile]
    exact mem_dropWhile_isDigit hc (List.mem_of_ne_of_mem (Numeral.ne_of_allows hc (by decide)) h)
  · exact h

theorem exponent?_of_mem (h : c ∈ cs) : exponent? cs = none := by
  cases cs with
  | nil => exact absurd h List.not_mem_nil
  | cons e cs =>
    refine if_neg ?_
    rintro ⟨he, -, hdigits⟩
    have hne : c ≠ e := by
      rintro rfl
      rw [← Numeral.allows_toLower, he] at hc
      exact absurd hc (by decide)
    have hdigit := List.all_eq_true.1 hdigits c (mem_sign hc (List.mem_of_ne_of_mem hne h))
    rw [Numeral.isDigit_of_foreign hc] at hdigit
    exact Bool.false_ne_true hdigit

end Decimal

/-- A text with a foreign character is no numeral. -/
theorem Numeral.read?_of_mem {c : Char} (hc : allows c = false) {cs : List Char}
    (h : c ∈ cs) : read? cs = none := by
  have hdigits := Decimal.mem_sign hc h
  have hother (word : String) (hword : word.toList.all allows = true) :
      String.ofList ((Decimal.sign cs).2.map Char.toLower) ≠ word := by
    rintro rfl
    rw [String.toList_ofList] at hword
    have hlower := List.all_eq_true.1 hword c.toLower (List.mem_map_of_mem hdigits)
    rw [allows_toLower, hc] at hlower
    exact Bool.false_ne_true hlower
  have hunsigned (negative : Bool) : Decimal.unsigned? negative (Decimal.sign cs).2 = none := by
    simp only [Decimal.unsigned?, List.span_eq_takeWhile_dropWhile, Decimal.exponent?_of_mem hc
      (Decimal.mem_fraction hc (Decimal.mem_dropWhile_isDigit hc hdigits))]
    split <;> rfl
  simp only [read?, hother "inf" (by decide), hother "infinity" (by decide),
    hother "nan" (by decide), hunsigned, or_self, if_false, Option.map_none]

theorem Numeral.allows_of_read? {cs : List Char} {n : Numeral} (h : read? cs = some n) :
    ∀ c ∈ cs, allows c = true := by
  intro c hc
  by_contra hforeign
  rw [read?_of_mem (Bool.eq_false_iff.2 hforeign) hc] at h
  exact absurd h nofun

theorem Numeral.ne_nil_of_read? {cs : List Char} {n : Numeral} (h : read? cs = some n) : cs ≠ [] := by
  rintro rfl
  have hnil : read? [] = none := by decide
  rw [hnil] at h
  exact absurd h nofun

end GradientFallback
