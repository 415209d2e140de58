import GradientFallback.Proofs.Text.Trimming
import GradientFallback.Value.Comma

/-! # How a value is split at its commas

A scan stands in its initial state wherever a comma separates, so what is in front of such a comma and
what is behind it are split as if each stood alone, and no part has a separating comma in it.
Trimming the parts loses nothing but blanks.
-/
namespace GradientFallback

theorem consFirst_append (c : Char) {ps : List (List Char)} (h : ps ≠ [])
    (qs : List (List Char)) : consFirst c (ps ++ qs) = consFirst c ps ++ qs := by
  cases ps with
  | nil => exact absurd rfl h
  | cons p ps => rfl

theorem flatten_consFirst (c : Char) (ps : List (List Char)) :
    (consFirst c ps).flatten = c :: ps.flatten := by
  cases ps <;> rfl

namespace Comma

/-- Where a scan of the text stands at its end. -/
def scan (cs : List Char) : State := cs.foldl State.next .initial

/-- Outside of parentheses and quotes, and not behind a backslash. -/
structure State.IsOutside (s : State) : Prop where
  depth : s.depth = 0
  quote : s.quote = none
  escaped : s.escaped = false

theorem State.IsOutside.eq_initial {s : State} (h : s.IsOutside) : s = .initial := by
  obtain ⟨depth, quote, escaped⟩ := s
  obtain ⟨rfl, rfl, rfl⟩ := h
  rfl

theorem State.separates_iff (s : State) (c : Char) :
    s.separates c = true ↔ c = ',' ∧ s.IsOutside := by
  simp only [State.separates, Bool.and_eq_true, beq_iff_eq, Option.isNone_iff_eq_none,
    Bool.not_eq_true']
  exact ⟨fun h => ⟨h.1.1.1, h.1.1.2, h.1.2, h.2⟩,
    fun h => ⟨⟨⟨h.1, h.2.depth⟩, h.2.quote⟩, h.2.escaped⟩⟩

/-- A separating comma is met in the initial state, and leaves it. -/
theorem State.eq_of_separates {s : State} {c : Char} (h : s.separates c = true) :
    c = ',' ∧ s = .initial ∧ s.next c = .initial := by
  obtain ⟨rfl, hout⟩ := (s.separates_iff c).1 h
  obtain rfl := hout.eq_initial
  exact ⟨rfl, rfl, rfl⟩

theorem State.next_blank {c : Char} (hc : isBlank c = true) : State.initial.next c = .initial := by
  have hsign (d : Char) (hd : isBlank d = false) : c ≠ d := by
    rintro rfl
    rw [hd] at hc
    exact Bool.false_ne_true hc
  simp [State.next, State.initial, hsign '\\' rfl, hsign '"' rfl, hsign '\'' rfl, hsign '(' rfl,
    hsign ')' rfl]

theorem scan_append_singleton (cs : List Char) (c : Char) :
    scan (cs ++ [c]) = (scan cs).next c := by
  rw [scan, List.foldl_append]
  rfl

/-! ## Cutting in two -/

theorem cutFrom_ne_nil (s : State) (cs : List Char) : cutFrom s cs ≠ [] := by
  cases cs with
  | nil => exact List.cons_ne_nil _ _
  | cons c cs =>
    rw [cutFrom]
    split
    · exact List.cons_ne_nil _ _
    · cases cutFrom (s.next c) cs <;> exact List.cons_ne_nil _ _

/-- At a separating comma the cut falls into the cuts of what is in front of it and behind it. -/
theorem cutFrom_append {s : State} {front : List Char}
    (h : (front.foldl State.next s).IsOutside) (back : List Char) :
    cutFrom s (front ++ ',' :: back) = cutFrom s front ++ cutFrom .initial back := by
  induction front generalizing s with
  | nil =>
    obtain rfl := State.IsOutside.eq_initial h
    rfl
  | cons c front ih =>
    rw [List.foldl_cons] at h
    rw [List.cons_append, cutFrom, cutFrom]
    split
    · next hseparates =>
      obtain ⟨-, hinitial, hnext⟩ := State.eq_of_separates hseparates
      rw [hnext, ← hinitial] at h
      rw [ih h, List.cons_append]
    · rw [ih h, consFirst_append c (cutFrom_ne_nil _ front)]

theorem partsOf_append {front : List Char} (h : (scan front).IsOutside) (back : List Char) :
    partsOf (front ++ ',' :: back) = partsOf front ++ partsOf back := by
  rw [partsOf, cutFrom_append h, List.map_append, List.filter_append]
  rfl

/-! ## Texts in one piece -/

/-- No comma in the text separates parts. -/
def IsWhole (s : State) (cs : List Char) : Prop := cutFrom s cs = [cs]

theorem isWhole_cons {s : State} {c : Char} {cs : List Char} :
    IsWhole s (c :: cs) ↔ s.separates c = false ∧ IsWhole (s.next c) cs := by
  rw [IsWhole, cutFrom, IsWhole]
  rcases hcut : cutFrom (s.next c) cs with _ | ⟨p, ps⟩
  · exact absurd hcut (cutFrom_ne_nil _ cs)
  · by_cases hc : s.separates c = true <;> simp [hc, consFirst]

theorem IsWhole.of_prefix {s : State} {front cs : List Char} (h : IsWhole s cs)
    (hfront : front <+: cs) : IsWhole s front := by
  obtain ⟨back, rfl⟩ := hfront
  induction front generalizing s with
  | nil => rfl
  | cons c front ih =>
    rw [List.cons_append, isWhole_cons] at h
    exact isWhole_cons.2 ⟨h.1, ih h.2⟩

theorem IsWhole.trimStart {cs : List Char} (h : IsWhole .initial cs) :
    IsWhole .initial (trimStart cs) := by
  induction cs with
  | nil => exact h
  | cons c cs ih =>
    rw [GradientFallback.trimStart, List.dropWhile_cons]
    split
    · next hc =>
      have hcs := (isWhole_cons.1 h).2
      rw [State.next_blank hc] at hcs
      exact ih hcs
    · exact h

theorem IsWhole.trim {cs : List Char} (h : IsWhole .initial cs) : IsWhole .initial (trim cs) :=
  h.trimStart.of_prefix (dropTrailing_isPrefix isBlank _)

/-- The first piece is whole from where the cut starts, and all others from the initial state. -/
theorem isWhole_of_cutFrom {s : State} {cs p : List Char} {ps : List (List Char)}
    (h : cutFrom s cs = p :: ps) : IsWhole s p ∧ ∀ q ∈ ps, IsWhole .initial q := by
  induction cs generalizing s p ps with
  | nil =>
    cases h
    exact ⟨rfl, nofun⟩
  | cons c cs ih =>
    rw [cutFrom] at h
    split at h
    · next hseparates =>
      obtain ⟨-, rfl, -⟩ := State.eq_of_separates hseparates
      obtain ⟨q, qs, hcut⟩ := List.exists_cons_of_ne_nil (cutFrom_ne_nil .initial cs)
      cases h
      rw [hcut, List.forall_mem_cons]
      exact ⟨rfl, ih hcut⟩
    · next hseparates =>
      obtain ⟨q, qs, hcut⟩ := List.exists_cons_of_ne_nil (cutFrom_ne_nil (s.next c) cs)
      rw [hcut] at h
      cases h
      exact ⟨isWhole_cons.2 ⟨Bool.eq_false_iff.2 hseparates, (ih hcut).1⟩, (ih hcut).2⟩

theorem isWhole_of_mem_cutFrom {cs p : List Char} (h : p ∈ cutFrom .initial cs) :
    IsWhole .initial p := by
  obtain ⟨q, qs, hcut⟩ := List.exists_cons_of_ne_nil (cutFrom_ne_nil .initial cs)
  obtain ⟨hfirst, hothers⟩ := isWhole_of_cutFrom hcut
  rw [hcut] at h
  rcases List.mem_cons.1 h with rfl | h
  · exact hfirst
  · exact hothers p h

/-- A part is not empty, trimmed, and its own only part. -/
theorem part_of_mem {cs p : List Char} (h : p ∈ partsOf cs) :
    p ≠ [] ∧ IsTrimmed p ∧ partsOf p = [p] := by
  obtain ⟨hmem, hne⟩ := List.mem_filter.1 h
  obtain ⟨piece, hpiece, rfl⟩ := List.mem_map.1 hmem
  have htrimmed := isTrimmed_trim piece
  have hwhole : cutFrom .initial (trim piece) = [trim piece] :=
    (isWhole_of_mem_cutFrom hpiece).trim
  refine ⟨fun hnil => by simp [hnil] at hne, htrimmed, ?_⟩
  rw [partsOf, hwhole, List.map_singleton, htrimmed.trim_eq]
  exact List.filter_eq_self.2 (List.forall_mem_singleton.2 hne)

/-! ## Nothing is lost -/

/-- The text without the commas that separate parts, each judged by the scan of what is in front of
it. -/
def withoutSeparators (cs : List Char) : List Char :=
  (cs.zipIdx.filter fun c => !(scan (cs.take c.2)).separates c.1).map Prod.fst

theorem flatten_cutFrom (front cs : List Char) :
    (cutFrom (scan front) cs).flatten = ((cs.zipIdx front.length).filter fun c =>
      !(scan ((front ++ cs).take c.2)).separates c.1).map Prod.fst := by
  induction cs generalizing front with
  | nil => rfl
  | cons c cs ih =>
    have hothers := ih (front ++ [c])
    rw [scan_append_singleton, List.append_assoc, List.singleton_append, List.length_append,
      List.length_singleton] at hothers
    rw [List.zipIdx_cons, List.filter_cons, List.take_left, cutFrom]
    by_cases hseparates : (scan front).separates c = true
    · obtain ⟨-, hinitial, hnext⟩ := State.eq_of_separates hseparates
      rw [if_pos hseparates, if_neg (by simp [hseparates]), ← hothers, hnext, hinitial]
      rfl
    · rw [if_neg hseparates, if_pos (by simp [hseparates]), flatten_consFirst, List.map_cons,
        ← hothers]

theorem flatten_partsOf (cs : List Char) : (partsOf cs).flatten.filter (fun c => !isBlank c) =
    (withoutSeparators cs).filter fun c => !isBlank c := by
  have hcut : (cutFrom .initial cs).flatten = withoutSeparators cs := flatten_cutFrom [] cs
  rw [partsOf, List.flatten_filter_not_isEmpty, List.filter_flatten, List.map_map, ← hcut,
    List.filter_flatten]
  exact congrArg List.flatten (List.map_congr_left fun p _ => filter_trim p)

/-! ## The laws -/

/-- A value is split at a comma outside of parentheses and quotes as if both sides stood alone.  Each
part is a trimmed text that is its own only part, and all parts together are the value but for its
separating commas and blanks. -/
theorem split_laws :
    (∀ front back : String, (scan front.toList).IsOutside →
      split (front ++ "," ++ back) = split front ++ split back) ∧
    (∀ value : String, ∀ part ∈ split value,
      part ≠ "" ∧ IsTrimmed part.toList ∧ split part = [part]) ∧
    ∀ value : String, ((split value).flatMap String.toList).filter (fun c => !isBlank c) =
      (withoutSeparators value.toList).filter fun c => !isBlank c := by
  refine ⟨fun front back h => ?_, fun value part hpart => ?_, fun value => ?_⟩
  · have hcomma : ",".toList = [','] := rfl
    rw [split, String.toList_append, String.toList_append, hcomma, List.append_assoc,
      List.singleton_append, partsOf_append h, List.map_append]
    rfl
  · obtain ⟨cs, hcs, rfl⟩ := List.mem_map.1 hpart
    obtain ⟨hne, htrimmed, honly⟩ := part_of_mem hcs
    rw [split, String.toList_ofList, honly]
    refine ⟨fun hnil => hne ?_, htrimmed, rfl⟩
    rw [← String.toList_ofList (l := cs), hnil]
    rfl
  · rw [← flatten_partsOf, split, List.flatMap_map]
    simp only [String.toList_ofList, List.flatMap_id']

/-- Commas in parentheses, in quotes and behind a backslash separate nothing, and an open parenthesis is
no harm behind the comma. -/
theorem split_laws_guarded :
    (scan "f(g(1, 2), ')') \\(".toList).IsOutside ∧
      split ("f(g(1, 2), ')') \\(" ++ "," ++ " \"c,d\" ,,(e, f ") =
        split "f(g(1, 2), ')') \\(" ++ ["\"c,d\"", "(e, f"] ∧
      "(e, f" ∈ split " \"c,d\" ,,(e, f " ∧ split "(e, f" = ["(e, f"] := by
  have hscan : (scan "f(g(1, 2), ')') \\(".toList).IsOutside := by constructor <;> decide
  have hback : split " \"c,d\" ,,(e, f " = ["\"c,d\"", "(e, f"] := by decide +kernel
  have hpart : "(e, f" ∈ split " \"c,d\" ,,(e, f " := by
    rw [hback]
    exact List.mem_cons_of_mem _ List.mem_cons_self
  refine ⟨hscan, ?_, hpart, (split_laws.2.1 _ _ hpart).2.2⟩
  rw [split_laws.1 _ _ hscan, hback]

end Comma
end GradientFallback
