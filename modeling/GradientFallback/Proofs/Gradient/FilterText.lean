import GradientFallback.Gradient.Filter

/-! # The text of a legacy filter

Every legacy filter is written after one template with two colors and a direction, which are eight
small hexadecimal digits each and a zero or a one.
-/
namespace GradientFallback

def isSmallHexDigit (c : Char) : Bool := isDigit c || ('a' ≤ c && c ≤ 'f')

/-- A number sign and eight small hexadecimal digits. -/
def IsColorCode (text : String) : Prop :=
  ∃ digits : List Char, text = String.ofList ('#' :: digits) ∧ digits.length = 8 ∧
    ∀ c ∈ digits, isSmallHexDigit c = true

/-- A text written after the template of legacy filters. -/
def LegacyFilter.IsFilterText (text : String) : Prop :=
  ∃ start finish direction : String, IsColorCode start ∧ IsColorCode finish ∧
    (direction = "0" ∨ direction = "1") ∧
    text = "progid:DXImageTransform.Microsoft.gradient( startColorstr='" ++ start ++
      "', endColorstr='" ++ finish ++ "',GradientType=" ++ direction ++ " )"

namespace Color

theorem isSmallHexDigit_digitChar : ∀ n < 16, isSmallHexDigit (Nat.digitChar n) = true := by decide

theorem isSmallHexDigit_of_mem_hexByte {n : Nat} {c : Char} (h : c ∈ hexByte n) :
    isSmallHexDigit c = true := by
  have hdigit (m : Nat) : isSmallHexDigit (Nat.digitChar (m % 16)) = true :=
    isSmallHexDigit_digitChar _ (Nat.mod_lt _ (by decide))
  simp only [hexByte, List.mem_cons, List.not_mem_nil, or_false] at h
  rcases h with rfl | rfl
  · exact hdigit _
  · exact hdigit _

theorem isColorCode_argbText (c : Color) : IsColorCode c.argbText := by
  refine ⟨_, rfl, by simp [hexByte], fun d hd => ?_⟩
  obtain ⟨x, -, hx⟩ := List.mem_flatMap.1 hd
  exact isSmallHexDigit_of_mem_hexByte hx

end Color

namespace LegacyFilter

theorem isFilterText_valueOf (start finish : Color) (axis : Axis) :
    IsFilterText (valueOf start finish axis) := by
  refine ⟨start.argbText, finish.argbText, axis.filterType, start.isColorCode_argbText,
    finish.isColorCode_argbText, ?_, rfl⟩
  cases axis with
  | vertical => exact .inl rfl
  | horizontal => exact .inr rfl

theorem isFilterText_of_ofText {text : String} {filter : LegacyFilter}
    (h : ofText text = .ok filter) : IsFilterText filter.value := by
  unfold ofText at h
  split at h
  · next g _ =>
    simp only [ofGradient] at h
    split at h
    · next value hcolors =>
      cases h
      unfold ofColors at hcolors
      split at hcolors
      · exact absurd hcolors nofun
      · split at hcolors
        · exact absurd hcolors nofun
        · cases hcolors
          exact isFilterText_valueOf _ _ _
    · exact absurd h nofun
  · exact absurd h nofun

end LegacyFilter
end GradientFallback
