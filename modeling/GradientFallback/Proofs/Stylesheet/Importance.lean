import GradientFallback.Proofs.Stylesheet.Printing
import GradientFallback.Proofs.Token.Quiet

/-! # The mark of importance

A mark of importance is looked for in the text of a value, behind its last exclamation mark, and not
among its tokens.  It is found only if nothing but letters and blanks stands there, so no sign of a
token in front of it can be taken for a part of it.
-/
namespace GradientFallback

/-! ## The mark in a value -/

namespace Item

/-- Either there is no exclamation mark, or there is a last one. -/
theorem exists_lastSign (value : List Char) :
    '!' ∉ value ∨ ∃ upTo behind, value = upTo ++ '!' :: behind ∧ '!' ∉ behind := by
  induction value with
  | nil => exact .inl List.not_mem_nil
  | cons c value ih =>
    rcases ih with hnone | ⟨upTo, behind, rfl, hbehind⟩
    · by_cases hc : c = '!'
      · exact .inr ⟨[], value, by rw [hc]; rfl, hnone⟩
      · exact .inl fun hmem => (List.mem_cons.1 hmem).elim (fun h => hc h.symm) hnone
    · exact .inr ⟨c :: upTo, behind, rfl, hbehind⟩

theorem ne_of_mem_reverse {behind : List Char} (h : '!' ∉ behind) :
    ∀ c ∈ behind.reverse, (c != '!') = true := by
  intro c hc
  rw [bne_iff_ne]
  rintro rfl
  exact h (List.mem_reverse.1 hc)

theorem splitMarker_of_not_mem {value : List Char} (h : '!' ∉ value) :
    splitMarker value = (value, none) := by
  have hall : value.reverse.takeWhile (· != '!') = value.reverse :=
    List.takeWhile_eq_self_iff.2 (ne_of_mem_reverse h)
  simp [splitMarker, hall]

theorem splitMarker_of_sign (upTo : List Char) {behind : List Char} (h : '!' ∉ behind) :
    splitMarker (upTo ++ '!' :: behind) =
      if sameLetters (String.ofList (trim behind)) "important" then
        (trimEnd upTo, some (trailing isBlank upTo ++ '!' :: behind))
      else (upTo ++ '!' :: behind, none) := by
  have hbehind : ((upTo ++ '!' :: behind).reverse.takeWhile (· != '!')).reverse = behind := by
    rw [List.reverse_append, List.reverse_cons, List.append_assoc,
      List.takeWhile_append_of_pos (ne_of_mem_reverse h)]
    simp
  have htake : (upTo ++ '!' :: behind).take ((upTo ++ '!' :: behind).length - behind.length) =
      upTo ++ ['!'] := by
    have hlength : (upTo ++ '!' :: behind).length - behind.length = (upTo ++ ['!']).length := by
      simp only [List.length_append, List.length_cons, List.length_nil]
      omega
    have hsplit : upTo ++ '!' :: behind = upTo ++ ['!'] ++ behind := by simp
    rw [hlength, hsplit, List.take_left]
  have hdrop : (upTo ++ '!' :: behind).drop (trimEnd upTo).length =
      trailing isBlank upTo ++ '!' :: behind := by
    have hsplit : upTo ++ '!' :: behind =
        trimEnd upTo ++ (trailing isBlank upTo ++ '!' :: behind) := by
      rw [← List.append_assoc, trimEnd, dropTrailing_append_trailing]
    rw [hsplit, List.drop_left]
  simp only [splitMarker, hbehind, htake, List.dropLast_concat, hdrop]
  simp

/-- A mark of importance is made of blanks, letters and its exclamation mark. -/
theorem isMarkChar_of_splitMarker {value marker : List Char}
    (h : (splitMarker value).2 = some marker) : ∀ c ∈ marker, Scan.isMarkChar c = true := by
  rcases exists_lastSign value with hnone | ⟨upTo, behind, rfl, hbehind⟩
  · rw [splitMarker_of_not_mem hnone] at h
    cases h
  rw [splitMarker_of_sign upTo hbehind] at h
  split at h
  · next hletters =>
    simp only [Option.some.injEq] at h
    have htrim : ∀ c ∈ trim behind, isLetter c = true :=
      Scan.isLetter_of_sameLetters hletters (List.all_eq_true.1 (by decide))
    have hblank {c : Char} (hc : isBlank c = true) : Scan.isMarkChar c = true := by
      simp [Scan.isMarkChar, hc]
    intro c hc
    rw [← h, ← takeWhile_trim_trailing behind] at hc
    simp only [List.mem_append, List.mem_cons] at hc
    rcases hc with hc | rfl | hc | hc | hc
    · exact hblank (trailing_all isBlank upTo c hc)
    · rfl
    · exact hblank (List.mem_takeWhile_imp hc)
    · simp [Scan.isMarkChar, htrim c hc]
    · exact hblank (trailing_all isBlank _ c hc)
  · cases h

/-- What stands in front of a sign that is neither blank nor a letter is no part of a mark. -/
theorem splitMarker_append_cons {c : Char} (hblank : isBlank c = false) (hletter : isLetter c = false)
    (hsign : c ≠ '!') (front back : List Char) :
    splitMarker (front ++ c :: back) =
      (front ++ c :: (splitMarker back).1, (splitMarker back).2) := by
  rcases exists_lastSign back with hnone | ⟨upTo, behind, rfl, hbehind⟩
  · rw [splitMarker_of_not_mem hnone]
    rcases exists_lastSign front with hnone' | ⟨upTo, behind, rfl, hbehind⟩
    · rw [splitMarker_of_not_mem (by simp [hnone, hnone', hsign.symm])]
    · rw [List.append_assoc, List.cons_append,
        splitMarker_of_sign upTo (by simp [hnone, hbehind, hsign.symm]), if_neg]
      intro hletters
      have hmem : c ∈ trim (behind ++ c :: back) := by
        rw [trim_append_cons hblank]
        simp
      have htrim := Scan.isLetter_of_sameLetters hletters (List.all_eq_true.1 (by decide)) c hmem
      rw [hletter] at htrim
      exact absurd htrim nofun
  · have hfront : front ++ c :: (upTo ++ '!' :: behind) = front ++ c :: upTo ++ '!' :: behind := by simp
    rw [hfront, splitMarker_of_sign _ hbehind, splitMarker_of_sign _ hbehind, trimEnd,
      dropTrailing_append_cons hblank, trailing_append_cons hblank]
    split <;> simp [trimEnd]

end Item
end GradientFallback
