import GradientFallback.Proofs.Text.Fields
import GradientFallback.Proofs.Text.Joining
import GradientFallback.Proofs.Text.Trimming
import Mathlib.Data.List.Basic

/-! # Lines and places

Every place of a text lies behind a number of whole lines and a part of one more.  The lines are those
of the text as it was before its line ends were unified: the line has the same number there, and the
same characters in front of its end.
-/
namespace GradientFallback

/-! ## Fields by number -/

theorem cutAt_eq_splitOnP (p : Char → Bool) (cs : List Char) : cutAt p cs = cs.splitOnP p := by
  induction cs with
  | nil => simp [cutAt]
  | cons c cs ih =>
    rw [cutAt, ih, List.splitOnP_cons_eq_if_modifyHead]
    obtain ⟨field, fields, hfields⟩ := List.exists_cons_of_ne_nil (List.splitOnP_ne_nil p cs)
    rw [hfields]
    rfl

theorem length_cutAt (p : Char → Bool) (cs : List Char) :
    (cutAt p cs).length = cs.countP p + 1 := by
  have hcons (c : Char) (fields : List (List Char)) (hne : fields ≠ []) :
      (consFirst c fields).length = fields.length := by
    obtain ⟨field, fields, rfl⟩ := List.exists_cons_of_ne_nil hne
    rfl
  induction cs with
  | nil => rfl
  | cons c cs ih =>
    have hne : cutAt p cs ≠ [] := by
      rw [cutAt_eq_splitOnP]
      exact List.splitOnP_ne_nil p cs
    rw [cutAt, List.countP_cons]
    by_cases hc : p c = true
    · rw [if_pos hc, if_pos hc, List.length_cons, ih]
    · rw [if_neg hc, if_neg hc, hcons c _ hne, ih]

/-- The number of a field is the number of separators in front of it. -/
theorem getElem?_cutAt {p : Char → Bool} {above field rest : List Char}
    (habove : ∀ c ∈ above.getLast?, p c = true) (hfield : ∀ c ∈ field, p c = false)
    (hrest : ∀ c ∈ rest.head?, p c = true) :
    (cutAt p (above ++ (field ++ rest)))[above.countP p]? = some field := by
  obtain ⟨more, hcut, -⟩ := cutAt_append hfield hrest
  rcases List.eq_nil_or_concat' above with rfl | ⟨front, c, rfl⟩
  · rw [List.nil_append, hcut]
    rfl
  · have hc : p c = true := habove c (by simp)
    have hfront : (cutAt p front).length = (front ++ [c]).countP p := by
      rw [length_cutAt, List.countP_append, List.countP_singleton, if_pos hc]
    have hparts : cutAt p (front ++ [c] ++ (field ++ rest)) =
        cutAt p front ++ cutAt p (field ++ rest) := by
      rw [List.append_assoc, List.singleton_append, cutAt_eq_splitOnP, cutAt_eq_splitOnP,
        cutAt_eq_splitOnP, List.splitOnP_append_cons _ _ hc]
    rw [hparts, ← hfront, List.getElem?_append_right (Nat.le_refl _), Nat.sub_self, hcut]
    rfl

/-! ## Places behind whole lines -/

/-- Nothing, or a text that ends with a line feed. -/
def WholeLines (cs : List Char) : Prop := ∀ c ∈ cs.getLast?, c = '\n'

theorem exists_wholeLines (cs : List Char) :
    ∃ above line, cs = above ++ line ∧ WholeLines above ∧ '\n' ∉ line := by
  refine ⟨_, _, (dropTrailing_append_trailing (· != '\n') cs).symm, fun c hc => ?_, fun hmem => ?_⟩
  · simpa using dropTrailing_last (· != '\n') cs c hc
  · simpa using trailing_all (· != '\n') cs '\n' hmem

namespace Location

theorem advance_line (l : Location) (cs : List Char) :
    (l.advance cs).line = l.line + cs.count '\n' := by
  induction cs generalizing l with
  | nil => rfl
  | cons c cs ih =>
    rw [advance_cons, ih, List.count_cons, next]
    by_cases hc : c = '\n'
    · simp only [hc, if_true, beq_self_eq_true]
      omega
    · simp only [hc, if_false, beq_iff_eq]
      omega

theorem advance_column (l : Location) {cs : List Char} (h : '\n' ∉ cs) :
    (l.advance cs).column = l.column + cs.length := by
  induction cs generalizing l with
  | nil => rfl
  | cons c cs ih =>
    have hc : c ≠ '\n' := (List.ne_of_not_mem_cons h).symm
    rw [advance_cons, ih _ (List.not_mem_of_not_mem_cons h), next, if_neg hc, List.length_cons,
      Nat.add_right_comm, Nat.add_assoc]

/-- Behind whole lines the columns are counted from one. -/
theorem advance_wholeLines {above line : List Char} (habove : WholeLines above) (hline : '\n' ∉ line) :
    (origin.advance (above ++ line)).line = above.count '\n' + 1 ∧
      (origin.advance (above ++ line)).column = line.length + 1 := by
  have hstart : (origin.advance above).column = 1 := by
    rcases List.eq_nil_or_concat' above with rfl | ⟨front, c, rfl⟩
    · rfl
    · obtain rfl : c = '\n' := habove c (by simp)
      rw [advance_append]
      rfl
  constructor
  · rw [advance_line, List.count_append, List.count_eq_zero.2 hline]
    exact Nat.add_comm 1 _
  · rw [advance_append, advance_column _ hline, hstart]
    exact Nat.add_comm 1 _

end Location

/-! ## Lines of a text with its own line ends -/

theorem count_unifyLineEnds (cs : List Char) : (unifyLineEnds cs).count '\n' = cs.count '\n' := by
  induction cs with
  | nil => rfl
  | cons c cs ih =>
    rw [unifyLineEnds]
    split
    · next hdropped => rw [ih, hdropped.1, List.count_cons_of_ne (by decide)]
    · rw [List.count_cons, List.count_cons, ih]

theorem getLast?_unifyLineEnds (cs : List Char) : (unifyLineEnds cs).getLast? = cs.getLast? := by
  induction cs with
  | nil => rfl
  | cons c cs ih =>
    rw [unifyLineEnds]
    split
    · next hdropped =>
      obtain ⟨ds, rfl⟩ := List.head?_eq_some_iff.1 hdropped.2
      rw [ih, List.getLast?_cons_cons]
    · rw [List.getLast?_cons, List.getLast?_cons, ih]

theorem unifyLineEnds_of_no_lineFeed {cs : List Char} (h : '\n' ∉ cs) : unifyLineEnds cs = cs := by
  induction cs with
  | nil => rfl
  | cons c cs ih =>
    have hcs := List.not_mem_of_not_mem_cons h
    rw [unifyLineEnds, if_neg fun hdropped => hcs (List.mem_of_mem_head? hdropped.2), ih hcs]

/-- No line end is unified in front of a character of a line. -/
theorem head?_unifyLineEnds {cs : List Char} (h : ∀ c ∈ (unifyLineEnds cs).head?, c ≠ '\n') :
    (unifyLineEnds cs).head? = cs.head? := by
  cases cs with
  | nil => rfl
  | cons c cs =>
    rw [unifyLineEnds] at h ⊢
    split at h
    · next hdropped =>
      obtain ⟨ds, rfl⟩ := List.head?_eq_some_iff.1 hdropped.2
      rw [unifyLineEnds, if_neg fun hreturn => absurd hreturn.1 (by decide)] at h
      exact absurd rfl (h '\n' rfl)
    · next hkept =>
      rw [if_neg hkept]
      rfl

/-- No place is in a line behind the last one. -/
theorem advance_line_le {cs front back : List Char} (h : unifyLineEnds cs = front ++ back) :
    (Location.origin.advance front).line ≤ (cutAt (· == '\n') cs).length := by
  have hcount : front.count '\n' + back.count '\n' = cs.count '\n' := by
    rw [← List.count_append, ← h, count_unifyLineEnds]
  have hlength : (cutAt (· == '\n') cs).length = cs.count '\n' + 1 := length_cutAt _ cs
  have hline : (Location.origin.advance front).line = 1 + front.count '\n' :=
    Location.advance_line .origin front
  omega

/-- A line goes on up to a line feed or to the end of the text. -/
theorem exists_line_end (cs : List Char) :
    ∃ line others, cs = line ++ others ∧ '\n' ∉ line ∧ ∀ c ∈ others.head?, c = '\n' := by
  refine ⟨_, _, (List.takeWhile_append_dropWhile (p := (· != '\n'))).symm, fun hmem => ?_,
    fun c hc => ?_⟩
  · simpa using List.mem_takeWhile_imp hmem
  · have hnot := List.head?_dropWhile_not (· != '\n') cs
    rw [show (cs.dropWhile (· != '\n')).head? = some c from hc] at hnot
    simpa using hnot

/-- A place that no line feed stands at is the place of a character of its line, or behind all of the
text. -/
theorem exists_line_at {cs front back : List Char} (h : unifyLineEnds cs = front ++ back)
    (hback : ∀ c ∈ back.head?, c ≠ '\n') :
    ∃ field, (cutAt (· == '\n') cs)[(Location.origin.advance front).line - 1]? = some field ∧
      field[(Location.origin.advance front).column - 1]? = back.head? ∧
      (Location.origin.advance front).column ≤ field.length + 1 := by
  obtain ⟨above, line, rfl, habove, hline⟩ := exists_wholeLines front
  rw [List.append_assoc] at h
  obtain ⟨lines, rest, rfl, rfl, hrest⟩ := exists_cut_of_unifyLineEnds h
  obtain ⟨written, rest, rfl, rfl, rfl⟩ := exists_cut_of_unifyLineEnds hrest
  obtain ⟨ending, others, rfl, hending, hothers⟩ := exists_line_end rest
  have hwritten : '\n' ∉ written := by
    rw [← List.count_eq_zero, ← count_unifyLineEnds, List.count_eq_zero]
    exact hline
  obtain ⟨hnumber, hcolumn⟩ := Location.advance_wholeLines habove hline
  have hhead := head?_unifyLineEnds hback
  rw [hhead] at hback
  rw [hnumber, hcolumn, count_unifyLineEnds, unifyLineEnds_of_no_lineFeed hwritten, hhead,
    Nat.add_sub_cancel, Nat.add_sub_cancel]
  have hlines : ∀ c ∈ lines.getLast?, (c == '\n') = true := by
    rw [WholeLines, getLast?_unifyLineEnds] at habove
    exact fun c hc => beq_iff_eq.2 (habove c hc)
  have hfield : ∀ c ∈ written ++ ending, (c == '\n') = false := by
    intro c hc
    refine beq_eq_false_iff_ne.2 fun hfeed => ?_
    rw [hfeed, List.mem_append] at hc
    exact hc.elim hwritten hending
  have hcut := getElem?_cutAt hlines hfield fun c hc => beq_iff_eq.2 (hothers c hc)
  rw [List.append_assoc] at hcut
  refine ⟨written ++ ending, hcut, ?_, by simp⟩
  rw [List.getElem?_append_right (Nat.le_refl _), Nat.sub_self, ← List.head?_eq_getElem?]
  cases ending with
  | cons c ending => rfl
  | nil =>
    -- Nothing of the line is left, so the text ends, for no line feed is at the place.
    cases others with
    | nil => rfl
    | cons c others => exact absurd (hothers c rfl) (hback c rfl)

end GradientFallback
