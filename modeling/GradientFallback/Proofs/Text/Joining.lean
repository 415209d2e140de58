import GradientFallback.Text.Source

/-! # Line ends of joined texts

A carriage return is left out for the line feed behind it, so only where two texts meet can joining
them make a difference.
-/
namespace GradientFallback

@[simp] theorem unifyLineEnds_nil : unifyLineEnds [] = [] := rfl

/-- What does not end with a carriage return stays where it is with more text behind. -/
theorem prefix_unifyLineEnds_append {cs front : List Char} {c : Char} (hc : c ≠ '\r')
    (h : front ++ [c] <+: unifyLineEnds cs) (ds : List Char) :
    front ++ [c] <+: unifyLineEnds (cs ++ ds) := by
  induction cs generalizing front with
  | nil => simp at h
  | cons a cs ih =>
    by_cases hdropped : a = '\r' ∧ cs.head? = some '\n'
    · have hhead : (cs ++ ds).head? = some '\n' := by
        rw [List.head?_append, hdropped.2]
        rfl
      rw [unifyLineEnds, if_pos hdropped] at h
      rw [List.cons_append, unifyLineEnds, if_pos ⟨hdropped.1, hhead⟩]
      exact ih h
    · rw [unifyLineEnds, if_neg hdropped] at h
      cases front with
      | nil =>
        obtain rfl : c = a := (List.cons_prefix_cons.1 h).1
        rw [List.cons_append, unifyLineEnds, if_neg fun hreturn => hc hreturn.1]
        exact List.cons_prefix_cons.2 ⟨rfl, List.nil_prefix⟩
      | cons b front =>
        obtain ⟨rfl, hfront⟩ := List.cons_prefix_cons.1 h
        have hkept : ¬(b = '\r' ∧ (cs ++ ds).head? = some '\n') := by
          cases cs with
          | nil => simp at hfront
          | cons d cs => exact hdropped
        rw [List.cons_append, List.cons_append, unifyLineEnds, if_neg hkept]
        exact List.cons_prefix_cons.2 ⟨rfl, ih hfront⟩

/-- Where no carriage return meets a line feed, joining changes nothing. -/
theorem unifyLineEnds_append {cs ds : List Char}
    (h : ¬(cs.getLast? = some '\r' ∧ ds.head? = some '\n')) :
    unifyLineEnds (cs ++ ds) = unifyLineEnds cs ++ unifyLineEnds ds := by
  induction cs with
  | nil => rfl
  | cons c cs ih =>
    have hnext : (c = '\r' ∧ (cs ++ ds).head? = some '\n') ↔ c = '\r' ∧ cs.head? = some '\n' := by
      cases cs with
      | nil =>
        refine and_congr_right fun hc => ?_
        rw [hc] at h
        simpa using h
      | cons d cs => rfl
    have hrest : ¬(cs.getLast? = some '\r' ∧ ds.head? = some '\n') := by
      rintro ⟨hlast, hhead⟩
      exact h ⟨by rw [List.getLast?_cons, hlast]; rfl, hhead⟩
    rw [List.cons_append, unifyLineEnds, unifyLineEnds, ih hrest]
    simp only [hnext]
    split <;> rfl

/-- A text that stays as it is in front of another one meets it without such a place. -/
theorem not_meets_of_prefix {cs ds : List Char}
    (h : unifyLineEnds cs <+: unifyLineEnds (cs ++ ds)) :
    ¬(cs.getLast? = some '\r' ∧ ds.head? = some '\n') := by
  rintro ⟨hlast, hhead⟩
  obtain ⟨front, rfl⟩ := List.getLast?_eq_some_iff.1 hlast
  obtain ⟨ds, rfl⟩ := List.head?_eq_some_iff.1 hhead
  have hfront : unifyLineEnds (front ++ ['\r']) = unifyLineEnds front ++ ['\r'] :=
    unifyLineEnds_append (by simp)
  have hall : unifyLineEnds (front ++ ['\r'] ++ '\n' :: ds) =
      unifyLineEnds front ++ unifyLineEnds ('\n' :: ds) := by
    rw [List.append_assoc, unifyLineEnds_append (by simp)]
    rfl
  have hline : unifyLineEnds ('\n' :: ds) = '\n' :: unifyLineEnds ds := by
    rw [unifyLineEnds, if_neg fun hreturn => absurd hreturn.1 (by decide)]
  rw [hfront, hall, hline, List.prefix_append_right_inj, List.cons_prefix_cons] at h
  exact absurd h.1 (by decide)

/-- A text can be cut between any two of its characters, line ends included. -/
theorem exists_cut_of_unifyLineEnds {cs xs ys : List Char} (h : unifyLineEnds cs = xs ++ ys) :
    ∃ a b, cs = a ++ b ∧ unifyLineEnds a = xs ∧ unifyLineEnds b = ys := by
  induction cs generalizing xs with
  | nil =>
    obtain ⟨rfl, rfl⟩ := List.append_eq_nil_iff.1 h.symm
    exact ⟨[], [], rfl, rfl, rfl⟩
  | cons c cs ih =>
    cases xs with
    | nil => exact ⟨[], c :: cs, rfl, rfl, h⟩
    | cons x xs =>
      rw [unifyLineEnds] at h
      split at h
      · next hdropped =>
        obtain ⟨a, b, rfl, ha, hb⟩ := ih h
        refine ⟨c :: a, b, rfl, ?_, hb⟩
        cases a with
        | nil => exact absurd ha.symm (List.cons_ne_nil x xs)
        | cons d a =>
          have hdrops : c = '\r' ∧ (d :: a).head? = some '\n' := hdropped
          rw [unifyLineEnds, if_pos hdrops, ha]
      · next hkept =>
        obtain ⟨rfl, hrest⟩ := List.cons.inj h
        obtain ⟨a, b, rfl, ha, hb⟩ := ih hrest
        refine ⟨c :: a, b, rfl, ?_, hb⟩
        have hstays : ¬(c = '\r' ∧ a.head? = some '\n') := by
          rintro ⟨rfl, hhead⟩
          obtain ⟨a, rfl⟩ := List.head?_eq_some_iff.1 hhead
          exact hkept ⟨rfl, rfl⟩
        rw [unifyLineEnds, if_neg hstays, ha]

/-- Two characters stand next to each other only where they did before. -/
theorem infix_of_unifyLineEnds {c d : Char} (hd : d ≠ '\n') {cs : List Char}
    (h : [c, d] <:+: unifyLineEnds cs) : [c, d] <:+: cs := by
  induction cs with
  | nil => exact h
  | cons e cs ih =>
    rw [unifyLineEnds] at h
    split at h
    · exact (ih h).trans (List.suffix_cons e cs).isInfix
    · rcases List.infix_cons_iff.1 h with hfront | hlater
      · obtain ⟨rfl, hnext⟩ := List.cons_prefix_cons.1 hfront
        refine (List.IsPrefix.isInfix (List.cons_prefix_cons.2 ⟨rfl, ?_⟩))
        cases cs with
        | nil => exact hnext
        | cons f cs =>
          rw [unifyLineEnds] at hnext
          split at hnext
          · next hdropped =>
            -- What follows a carriage return that is left out is a line feed.
            obtain ⟨ds, rfl⟩ := List.head?_eq_some_iff.1 hdropped.2
            rw [unifyLineEnds, if_neg fun hreturn => absurd hreturn.1 (by decide)] at hnext
            exact absurd (List.cons_prefix_cons.1 hnext).1 hd
          · obtain ⟨rfl, -⟩ := List.cons_prefix_cons.1 hnext
            exact List.cons_prefix_cons.2 ⟨rfl, List.nil_prefix⟩
      · exact (ih hlater).trans (List.suffix_cons e cs).isInfix

end GradientFallback
