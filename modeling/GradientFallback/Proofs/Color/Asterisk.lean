import GradientFallback.Color.Parser
import GradientFallback.Proofs.Number.Alphabet
import GradientFallback.Proofs.Text.Fields
import GradientFallback.Proofs.Text.Trimming

/-! # No color has an asterisk in it

Digits, names and numerals have no asterisk, and neither blanks and separators nor the words that are
dropped from a channel take one away.  So a text with a comment in it is no color.
-/
namespace GradientFallback

namespace Color

theorem channel?_of_mem {cs : List Char} (h : '*' ∈ cs) : channel? cs = none := by
  have hwords : ∀ word ∈ droppedWords, word ≠ [] ∧ '*' ∉ word := by decide
  have hdropped (words : List (List Char)) (hwords : ∀ word ∈ words, word ≠ [] ∧ '*' ∉ word)
      {ds : List Char} (hds : '*' ∈ ds) : '*' ∈ words.foldl (fun cs word => without word cs) ds := by
    induction words generalizing ds with
    | nil => exact hds
    | cons word words ih =>
      obtain ⟨hne, hstar⟩ := hwords word List.mem_cons_self
      exact ih (fun w hw => hwords w (List.mem_cons_of_mem _ hw)) (mem_without hne hstar hds)
  rw [channel?, Numeral.read?_of_mem (by decide) (hdropped droppedWords hwords h)]
  rfl

theorem alpha?_of_mem {cs : List Char} (h : '*' ∈ cs) : alpha? cs = none := by
  rw [alpha?]
  split
  · next hpercent =>
    obtain ⟨front, rfl⟩ := List.getLast?_eq_some_iff.1 hpercent
    have hfront : '*' ∈ front := (List.mem_append.1 h).resolve_right (by decide)
    rw [List.dropLast_concat, Numeral.read?_of_mem (by decide) hfront]
    rfl
  · rw [Numeral.read?_of_mem (by decide) h]
    rfl

theorem arguments?_of_mem {cs : List Char} (h : '*' ∈ cs) : arguments? cs = none := by
  rw [arguments?]
  split
  · next hclose =>
    obtain ⟨front, rfl⟩ := List.getLast?_eq_some_iff.1 hclose
    have hfront : '*' ∈ front := (List.mem_append.1 h).resolve_right (by decide)
    obtain ⟨field, hfield, hstar⟩ := exists_mem_fieldsOf (p := separates) (by decide) hfront
    rw [List.dropLast_concat]
    split
    · next a b c hfields =>
      rw [hfields] at hfield
      simp only [List.mem_cons, List.not_mem_nil, or_false] at hfield
      rcases hfield with rfl | rfl | rfl
      · rw [channel?_of_mem hstar]
        rfl
      · rw [channel?_of_mem hstar]
        cases channel? a <;> rfl
      · rw [channel?_of_mem hstar]
        cases channel? a <;> cases channel? b <;> rfl
    · next a b c d hfields =>
      rw [hfields] at hfield
      simp only [List.mem_cons, List.not_mem_nil, or_false] at hfield
      rcases hfield with rfl | rfl | rfl | rfl
      · rw [channel?_of_mem hstar]
        cases alpha? d <;> rfl
      · rw [channel?_of_mem hstar]
        cases alpha? d <;> cases channel? a <;> rfl
      · rw [channel?_of_mem hstar]
        cases alpha? d <;> cases channel? a <;> cases channel? b <;> rfl
      · rw [alpha?_of_mem hstar]
        rfl
    · rfl
  · rfl

theorem ofHex?_of_mem {cs : List Char} (h : '*' ∈ cs) : ofHex? cs = none := by
  refine if_neg fun hall => ?_
  exact absurd (List.all_eq_true.1 hall '*' h) (by decide)

theorem mem_of_behind? {words : List String} (hwords : ∀ word ∈ words, '*' ∉ word.toList)
    {cs rest : List Char} (h : '*' ∈ cs) (hrest : behind? words cs = some rest) : '*' ∈ rest := by
  obtain ⟨word, hfind, rfl⟩ := Option.map_eq_some_iff.1 hrest
  have hfront := List.find?_some hfind
  obtain ⟨more, rfl⟩ := List.isPrefixOf_iff_prefix.1 hfront
  rw [← String.length_toList, List.drop_left]
  exact (List.mem_append.1 h).resolve_left (hwords word (List.mem_of_find?_eq_some hfind))

theorem ofName?_of_mem {cs : List Char} (h : '*' ∈ cs) : ofName? cs = none := by
  have hother {name : String} (hname : '*' ∉ name.toList) : String.ofList cs ≠ name := by
    rintro rfl
    rw [String.toList_ofList] at hname
    exact hname h
  have hnames : ∀ entry ∈ namedColors, '*' ∉ entry.1.toList := by decide +kernel
  have hlookup : namedColors.lookup (String.ofList cs) = none :=
    List.lookup_eq_none_iff.2 fun entry hentry => by
      simpa using hother (hnames entry hentry)
  rw [ofName?, if_neg (hother (by decide)), hlookup]
  rfl

theorem read?_of_mem {cs : List Char} (h : '*' ∈ cs) : read? cs = none := by
  unfold read?
  split
  · exact ofHex?_of_mem (List.mem_of_ne_of_mem (by decide) h)
  · split
    · next hrest =>
      rw [arguments?_of_mem (mem_of_behind? (by decide) h hrest)]
      rfl
    · split
      · next hrest =>
        rw [arguments?_of_mem (mem_of_behind? (by decide) h hrest)]
        rfl
      · exact ofName?_of_mem h

/-- A text with an asterisk is no color. -/
theorem parse_of_mem {text : String} (h : '*' ∈ text.toList) : (parse text).toOption = none := by
  have hstart : '*' ∈ trimStart text.toList := by
    rw [← List.takeWhile_append_dropWhile (p := isBlank) (l := text.toList)] at h
    rcases List.mem_append.1 h with h | h
    · exact absurd (List.mem_takeWhile_imp h) (by decide)
    · exact h
  have htrim : '*' ∈ trim text.toList := mem_dropTrailing (by decide) hstart
  rw [parse, read?_of_mem (List.mem_map.2 ⟨'*', htrim, rfl⟩)]
  rfl

end Color

end GradientFallback
