import GradientFallback.Proofs.Fallback.Growth

/-! # Filters without carriage returns

A node that is written without carriage returns is written without them with its filters, too.  So
nothing is left out where the written text is read again.
-/
namespace GradientFallback

theorem LegacyFilter.IsFilterText.not_mem {filter : String} (h : IsFilterText filter) :
    '\r' ∉ filter.toList := by
  obtain ⟨_, _, direction, ⟨start, rfl, -, hstart⟩, ⟨finish, rfl, -, hfinish⟩, hdirection, rfl⟩ := h
  have hdigits {digits : List Char} (hall : ∀ c ∈ digits, isSmallHexDigit c = true) :
      '\r' ∉ digits := fun hmem => absurd (hall _ hmem) (by decide)
  have hlast : '\r' ∉ direction.toList := by
    rcases hdirection with rfl | rfl <;> decide
  simp [hdigits hstart, hdigits hfinish, hlast]

theorem Declaration.not_mem_filter {d : Declaration} {filter : String} (hd : '\r' ∉ d.print.toList)
    (hfilter : '\r' ∉ filter.toList) :
    '\r' ∉ ({ d with semicolon := true } : Declaration).print.toList ∧
      '\r' ∉ ({ d with property := "filter", value := filter } : Declaration).print.toList := by
  simp only [print, String.toList_append, List.mem_append, not_or] at hd ⊢
  obtain ⟨⟨⟨⟨⟨⟨hbefore, hproperty⟩, hbetween⟩, hvalue⟩, hmarker⟩, hafter⟩, hsemicolon⟩ := hd
  exact ⟨⟨⟨⟨⟨⟨⟨hbefore, hproperty⟩, hbetween⟩, hvalue⟩, hmarker⟩, hafter⟩, by decide⟩,
    ⟨⟨⟨⟨⟨hbefore, by decide⟩, hbetween⟩, hfilter⟩, hmarker⟩, hafter⟩, hsemicolon⟩

namespace Node

theorem not_mem_printAll {nodes : List Node} :
    '\r' ∉ (printAll nodes).toList ↔ ∀ n ∈ nodes, '\r' ∉ n.print.toList := by
  rw [printAll_toList]
  simp

theorem not_mem_printAll_withFilters (o : Options) {nodes : List Node}
    (h : ∀ n ∈ nodes, '\r' ∉ n.print.toList → '\r' ∉ (n.withFilters o).print.toList)
    (hnodes : '\r' ∉ (printAll nodes).toList) :
    '\r' ∉ (printAll (nodes.map (·.withFilters o))).toList := by
  rw [not_mem_printAll, List.forall_mem_map]
  exact fun n hn => h n hn (not_mem_printAll.1 hnodes n hn)

theorem not_mem_withFilters (o : Options) (n : Node) (h : '\r' ∉ n.print.toList) :
    '\r' ∉ (n.withFilters o).print.toList := by
  induction n using induct with
  | rule head nodes after ih =>
    rw [print] at h
    simp only [String.toList_append, List.mem_append, not_or] at h
    rcases withFilters_rule o head nodes after with
      ⟨-, hrule⟩ | ⟨filter, front, d, back, -, htemplate, hlast, hrule⟩
    · have hinner := not_mem_printAll_withFilters o ih h.1.1.2
      rw [hrule, print]
      simp [h, hinner]
    · have hnodes : nodes = front ++ .declaration d :: back := hlast.nodes_eq
      rw [hnodes] at ih h
      have hinner := h.1.1.2
      rw [not_mem_printAll, List.forall_mem_append, List.forall_mem_cons] at hinner
      obtain ⟨hfront, hd, hback⟩ := hinner
      have hfront' := not_mem_printAll_withFilters o
        (fun n hn => ih n (List.mem_append_left _ hn)) (not_mem_printAll.2 hfront)
      have hback' := not_mem_printAll_withFilters o
        (fun n hn => ih n (List.mem_append_right _ (List.mem_cons_of_mem _ hn)))
        (not_mem_printAll.2 hback)
      have hadded := Declaration.not_mem_filter hd htemplate.not_mem
      rw [hrule, print]
      simp [h, printAll_graft, hfront', hback', hadded]
  | atRule head nodes after ih =>
    rw [print] at h
    simp only [String.toList_append, List.mem_append, not_or] at h
    have hinner := not_mem_printAll_withFilters o ih h.1.1.2
    rw [withFilters, visit_atRule_fst, print]
    simp only [withFilters] at hinner
    simp [h, hinner]
  | statement => exact h
  | declaration => exact h
  | comment => exact h

end Node

end GradientFallback
