import GradientFallback.Proofs.Token.Tiling
import GradientFallback.Text.Fields

/-! # Cut and thinned texts

A word that does not occur is not taken out of a text, and a character that separates nothing is in one
of the fields.  Fields with separators around them are cut as they were written.
-/
namespace GradientFallback

/-! ## Thinned texts -/

theorem without_append {word : List Char} (hne : word ≠ []) (cs : List Char) :
    without word (word ++ cs) = without word cs := by
  have hcs : word ++ cs ≠ [] := List.append_ne_nil_of_left_ne_nil hne cs
  have hword : word.isPrefixOf (word ++ cs) = true := List.isPrefixOf_iff_prefix.2 ⟨cs, rfl⟩
  rw [without, segment_of_step _ hcs (by rw [if_pos hword]) (List.length_pos_iff.2 hne),
    List.drop_left]
  rfl

theorem without_cons {word cs : List Char} {d : Char} (hword : ¬word.isPrefixOf (d :: cs) = true) :
    without word (d :: cs) = d :: without word cs := by
  rw [without, segment_of_step _ (List.cons_ne_nil d cs) (by rw [if_neg hword]) Nat.one_pos]
  rfl

theorem mem_without {word cs : List Char} {c : Char} (hne : word ≠ []) (hc : c ∉ word) (h : c ∈ cs) :
    c ∈ without word cs := by
  induction hl : cs.length using Nat.strongRecOn generalizing cs with
  | ind l ih =>
    by_cases hword : word.isPrefixOf cs = true
    · obtain ⟨more, rfl⟩ := List.isPrefixOf_iff_prefix.1 hword
      have hpos := List.length_pos_iff.2 hne
      have hmore : c ∈ more := (List.mem_append.1 h).resolve_left hc
      rw [without_append hne]
      exact ih more.length (by rw [← hl, List.length_append]; omega) hmore rfl
    · obtain ⟨d, more, rfl⟩ := List.exists_cons_of_ne_nil (List.ne_nil_of_mem h)
      rw [without_cons hword]
      rcases List.mem_cons.1 h with rfl | hmore
      · exact List.mem_cons_self
      · have hrest := ih more.length (by rw [← hl, List.length_cons]; omega) hmore rfl
        exact List.mem_cons_of_mem d hrest

/-- A word is not found in a text without its first character. -/
theorem without_eq_self {c : Char} {cs : List Char} (word : List Char) (hword : word.head? = some c)
    (h : c ∉ cs) : without word cs = cs := by
  induction cs with
  | nil => rfl
  | cons d cs ih =>
    obtain ⟨more, rfl⟩ := List.head?_eq_some_iff.1 hword
    have hne : c ≠ d := List.ne_of_not_mem_cons h
    rw [without_cons (by simp [hne]), ih (List.not_mem_of_not_mem_cons h)]

theorem without_singleton (c : Char) (cs : List Char) : without [c] cs = cs.filter (· != c) := by
  induction cs with
  | nil => rfl
  | cons d cs ih =>
    by_cases hd : d = c
    · subst hd
      have hfront : without [d] (d :: cs) = without [d] cs := without_append (List.cons_ne_nil d []) cs
      rw [hfront, ih]
      simp
    · rw [without_cons (by simp [Ne.symm hd]), ih]
      simp [hd]

/-! ## Fields -/

theorem mem_consFirst {c d : Char} {ps : List (List Char)} (h : ∃ p ∈ ps, c ∈ p) :
    ∃ p ∈ consFirst d ps, c ∈ p := by
  obtain ⟨p, hp, hc⟩ := h
  cases ps with
  | nil => exact absurd hp List.not_mem_nil
  | cons q ps =>
    rcases List.mem_cons.1 hp with rfl | hp
    · exact ⟨d :: p, List.mem_cons_self, List.mem_cons_of_mem d hc⟩
    · exact ⟨p, List.mem_cons_of_mem _ hp, hc⟩

/-- A character that separates nothing is in one of the fields. -/
theorem exists_mem_fieldsOf {p : Char → Bool} {c : Char} (hp : p c = false) {cs : List Char}
    (h : c ∈ cs) : ∃ field ∈ fieldsOf p cs, c ∈ field := by
  have hcut : ∃ field ∈ cutAt p cs, c ∈ field := by
    induction cs with
    | nil => exact absurd h List.not_mem_nil
    | cons d cs ih =>
      rw [cutAt]
      rcases List.mem_cons.1 h with rfl | h
      · rw [if_neg (by simp [hp])]
        cases cutAt p cs with
        | nil => exact ⟨[c], List.mem_cons_self, List.mem_cons_self⟩
        | cons q qs => exact ⟨c :: q, List.mem_cons_self, List.mem_cons_self⟩
      · split
        · obtain ⟨field, hfield, hc⟩ := ih h
          exact ⟨field, List.mem_cons_of_mem _ hfield, hc⟩
        · exact mem_consFirst (ih h)
  obtain ⟨field, hfield, hc⟩ := hcut
  refine ⟨field, List.mem_filter.2 ⟨hfield, ?_⟩, hc⟩
  rw [List.isEmpty_eq_false_iff.2 (List.ne_nil_of_mem hc)]
  rfl

section Cut

variable {p : Char → Bool} {gap field rest : List Char}

theorem fieldsOf_cons_of_pos {c : Char} (hc : p c = true) (cs : List Char) :
    fieldsOf p (c :: cs) = fieldsOf p cs := by
  simp [fieldsOf, cutAt, hc]

theorem fieldsOf_of_forall (hgap : ∀ c ∈ gap, p c = true) : fieldsOf p gap = [] := by
  induction gap with
  | nil => rfl
  | cons c gap ih =>
    rw [fieldsOf_cons_of_pos (hgap c List.mem_cons_self)]
    exact ih fun d hd => hgap d (List.mem_cons_of_mem c hd)

/-- The cut in front of a separator keeps the whole field. -/
theorem cutAt_append (hfield : ∀ c ∈ field, p c = false) (hrest : ∀ c ∈ rest.head?, p c = true) :
    ∃ more, cutAt p (field ++ rest) = field :: more ∧
      fieldsOf p rest = more.filter fun f => !f.isEmpty := by
  induction field with
  | nil =>
    cases rest with
    | nil => exact ⟨[], rfl, rfl⟩
    | cons c rest =>
      have hc : p c = true := hrest c rfl
      refine ⟨cutAt p rest, by simp [cutAt, hc], ?_⟩
      rw [fieldsOf_cons_of_pos hc, fieldsOf]
  | cons c field ih =>
    obtain ⟨more, hcut, hmore⟩ := ih fun d hd => hfield d (List.mem_cons_of_mem c hd)
    refine ⟨more, ?_, hmore⟩
    rw [List.cons_append, cutAt, if_neg (by simp [hfield c List.mem_cons_self]), hcut]
    rfl

/-- The first field stands between separators, and the other fields come from behind it. -/
theorem fieldsOf_append (hgap : ∀ c ∈ gap, p c = true) (hfield : ∀ c ∈ field, p c = false)
    (hne : field ≠ []) (hrest : ∀ c ∈ rest.head?, p c = true) :
    fieldsOf p (gap ++ (field ++ rest)) = field :: fieldsOf p rest := by
  induction gap with
  | nil =>
    obtain ⟨more, hcut, hmore⟩ := cutAt_append hfield hrest
    rw [List.nil_append, hmore, fieldsOf, hcut, List.filter_cons_of_pos (by simpa using hne)]
  | cons c gap ih =>
    rw [List.cons_append, fieldsOf_cons_of_pos (hgap c List.mem_cons_self)]
    exact ih fun d hd => hgap d (List.mem_cons_of_mem c hd)

end Cut

end GradientFallback
