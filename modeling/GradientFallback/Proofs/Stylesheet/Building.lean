import GradientFallback.Proofs.Stylesheet.Tidy

/-! # Taking tidy layouts apart and putting them together

A tidy layout is made of tidy layouts.  A construct that has more than trivia behind it can stand in
front of any others, and trivia make a tidy layout of comments.
-/
namespace GradientFallback

theorem Closes.exists (nested : Bool) : ∃ after, Closes nested after := by
  cases nested with
  | false => exact ⟨[], rfl⟩
  | true => exact ⟨['\x7d'], rfl⟩

theorem Opens.exists_brace {before : String} {head : List Token} {o : Opening}
    (h : Opens before head o) : ∃ run brace, head = run ++ [brace] ∧ brace.kind = .leftBrace := by
  cases h with
  | @rule run brace ends starts passes closed => exact ⟨run, brace, rfl, ends⟩
  | @atRule t brace name run kind passes closed ends => exact ⟨t :: run, brace, rfl, ends⟩

/-- A construct with more than trivia behind it can stand in front of all others. -/
theorem Leaf.firm {nested : Bool} {before : String} {blanks ts rest : List Token} {n : Node}
    {x : List Char} (h : Leaf nested before ts rest n) (hspelled : Token.Spelled (blanks ++ ts) x)
    (hx : x ≠ []) (hblanks : Token.AllBlank blanks) (hrest : ¬Token.AllTrivia rest) :
    Token.Firm (blanks ++ ts) ∧ ∀ rest', Leaf nested before ts rest' n := by
  cases h with
  | @comment t content _ kind =>
    have hread := (Token.spelled_append.1 hspelled).2.1
    have hfirm := Token.firm_comment hread kind
    rw [Token.shown_of_comment hx hread kind] at hfirm
    have hwhite : t.isWhitespace = false := by
      rw [Token.isWhitespace, kind]
      rfl
    exact ⟨fun y => spelled_blanks hspelled hblanks (hfirm y)
      ⟨t, [], rfl, hwhite⟩, fun _ => .comment kind⟩
  | @statement t semicolon name run _ kind passes closed ends =>
    refine ⟨?_, fun _ => .statement kind passes closed ends⟩
    rw [← List.append_assoc] at hspelled ⊢
    exact Token.Spelled.firm _ hspelled (c := ';') (by rw [ends]; rfl) (by decide)
  | lastStatement kind passes closed => exact absurd Token.allTrivia_nil hrest
  | @declaration p after _ semicolon inside lawful after_trivia after_nil ends =>
    refine ⟨?_, fun _ => .declaration inside lawful after_trivia after_nil ends⟩
    rw [← List.append_assoc] at hspelled ⊢
    exact Token.Spelled.firm _ hspelled (c := ';') (by rw [ends]; rfl) (by decide)
  | lastDeclaration inside lawful rest_trivia rest_nil => exact absurd rest_trivia hrest

namespace Layout

theorem kept_length_le (c : Layout) : c.kept.length ≤ c.tokens.length := by
  induction c with
  | ending blanks => exact Nat.le_refl _
  | sign blanks t rest ih =>
    simp only [kept, tokens, List.length_append, List.length_cons]
    omega
  | leaf blanks ts n rest ih =>
    simp only [kept, tokens, List.length_append]
    omega
  | block blanks head o inner innerEnd rest ihInner ihRest =>
    simp only [kept, tokens, List.length_append, List.length_cons]
    omega

namespace Tidy

variable {nested : Bool}

theorem not_sign {blanks : List Token} {t : Token} {rest : Layout} :
    ¬(sign blanks t rest).Tidy nested := by
  intro h
  have hlength := congrArg List.length h.kept
  have hle := rest.kept_length_le
  simp only [Layout.kept, tokens, List.length_append, List.length_cons] at hlength
  omega

theorem leaf_iff {blanks ts : List Token} {n : Node} {rest : Layout} :
    (leaf blanks ts n rest).Tidy nested ↔
      Token.AllBlank blanks ∧ Leaf nested (Item.sourceText blanks) ts rest.tokens n ∧
        (∀ t ∈ ts.take 1, t.Plain) ∧
        (∀ after, Closes nested after →
          Token.Spelled (blanks ++ ts) (Token.source rest.tokens ++ after)) ∧ rest.Tidy nested := by
  constructor
  · intro h
    obtain ⟨hblanks, hleaf, hrest⟩ := h.lawful
    have hkept := h.kept
    simp only [Layout.kept, tokens, List.append_cancel_left_eq] at hkept
    refine ⟨hblanks, hleaf, fun t ht => h.plain t (List.mem_append_left _ ht), fun after hafter =>
      (Token.spelled_append.1 (h.spelled after hafter)).1, hrest, hkept, fun t ht =>
      h.plain t (List.mem_append_right _ ht), fun after hafter =>
      (Token.spelled_append.1 (h.spelled after hafter)).2⟩
  · rintro ⟨hblanks, hleaf, hplain, hspelled, hrest⟩
    refine ⟨⟨hblanks, hleaf, hrest.lawful⟩, congrArg _ hrest.kept, fun t ht => ?_,
      fun after hafter => Token.spelled_append.2 ⟨hspelled after hafter, hrest.spelled after hafter⟩⟩
    rcases List.mem_append.1 ht with ht | ht
    · exact hplain t ht
    · exact hrest.plain t ht

theorem block_iff {blanks head : List Token} {o : Opening} {inner rest : Layout} {innerEnd : Token} :
    (block blanks head o inner innerEnd rest).Tidy nested ↔
      (Token.AllBlank blanks ∧ Opens (Item.sourceText blanks) head o ∧
        (∀ t ∈ head.take 1, t.Plain) ∧ Token.Firm (blanks ++ head) ∧
        innerEnd.kind = .rightBrace ∧ innerEnd.text = ['\x7d']) ∧
        inner.Tidy true ∧ rest.Tidy nested := by
  constructor
  · intro h
    obtain ⟨hblanks, hopens, hinner, hend, hrest⟩ := h.lawful
    have hkept := h.kept
    have hinnerLe := inner.kept_length_le
    have hrestLe := rest.kept_length_le
    simp only [Layout.kept, tokens, List.append_assoc, List.append_cancel_left_eq] at hkept
    have hlength := congrArg List.length hkept
    simp only [List.length_append, List.length_cons] at hlength
    obtain ⟨hkeptInner, hkeptRest⟩ := List.append_inj hkept (by omega)
    obtain ⟨after, hafter⟩ := Closes.exists nested
    obtain ⟨hfront, hback⟩ := Token.spelled_append.1 (h.spelled after hafter)
    obtain ⟨hhead, hinside⟩ := Token.spelled_append.1 hfront
    have hbrace := Token.text_of_sign (hback.written innerEnd List.mem_cons_self) (c := '\x7d')
      (by rw [hend]; rfl)
    have hcloses : Closes true (Token.source (innerEnd :: rest.tokens) ++ after) := by
      rw [Token.source_cons, hbrace]
      rfl
    have hplain (t : Token) (ht : t ∈ head.take 1 ++ inner.starts ++ rest.starts) := h.plain t ht
    refine ⟨⟨hblanks, hopens, fun t ht => hplain t (by simp [ht]), ?_, hend, hbrace⟩,
      ⟨hinner, hkeptInner, fun t ht => hplain t (by simp [ht]), fun x hx => hcloses.spelled hx hinside⟩,
      ⟨hrest, (List.cons.inj hkeptRest).2, fun t ht => hplain t (by simp [ht]), fun x hx =>
        (Token.spelled_append.1 (h.spelled x hx)).2.2⟩⟩
    obtain ⟨run, brace, rfl, hkind⟩ := hopens.exists_brace
    rw [← List.append_assoc] at hhead ⊢
    exact Token.Spelled.firm _ hhead (c := '\x7b') (by rw [hkind]; rfl) (by decide)
  · rintro ⟨⟨hblanks, hopens, hplain, hfirm, hend, hbrace⟩, hinner, hrest⟩
    refine ⟨⟨hblanks, hopens, hinner.lawful, hend, hrest.lawful⟩, ?_, fun t ht => ?_,
      fun after hafter => spelled_block hfirm hinner.spelled hbrace hend (hrest.spelled after hafter)⟩
    · rw [Layout.kept, tokens, hinner.kept, hrest.kept]
    · rcases List.mem_append.1 ht with ht | ht
      · rcases List.mem_append.1 ht with ht | ht
        · exact hplain t ht
        · exact hinner.plain t ht
      · exact hrest.plain t ht

/-- Tidy layouts can stand behind a construct that has more than trivia behind it. -/
theorem leaf_move {blanks ts : List Token} {n : Node} {rest rest' : Layout}
    (h : (leaf blanks ts n rest).Tidy nested) (hrest : ¬Token.AllTrivia rest.tokens)
    (h' : rest'.Tidy nested) : (leaf blanks ts n rest').Tidy nested := by
  obtain ⟨hblanks, hleaf, hplain, hspelled, -⟩ := leaf_iff.1 h
  obtain ⟨after, hafter⟩ := Closes.exists nested
  have hne : Token.source rest.tokens ++ after ≠ [] := by
    intro hnil
    have htokens := Token.source_eq_nil ((leaf_iff.1 h).2.2.2.2.spelled after hafter)
      (List.append_eq_nil_iff.1 hnil).1
    rw [htokens] at hrest
    exact hrest Token.allTrivia_nil
  obtain ⟨hfirm, hany⟩ := hleaf.firm (hspelled after hafter) hne hblanks hrest
  exact leaf_iff.2 ⟨hblanks, hany _, hplain, fun _ _ => hfirm _, h'⟩

theorem print_leaf {blanks ts : List Token} {n : Node} {rest : Layout}
    (h : (leaf blanks ts n rest).Tidy nested) :
    n.print.toList = Token.source (blanks ++ ts) := by
  obtain ⟨-, hleaf, hplain, hspelled, -⟩ := leaf_iff.1 h
  obtain ⟨after, hafter⟩ := Closes.exists nested
  have hread := (Token.spelled_append.1 (hspelled after hafter)).2
  rw [Item.print_leaf hleaf hread.written hplain, Token.source_append, Item.sourceText,
    String.toList_ofList]

/-- A block is written with the tokens of its head around any nodes. -/
theorem print_block {blanks head : List Token} {o : Opening} {inner rest : Layout} {innerEnd : Token}
    (h : (block blanks head o inner innerEnd rest).Tidy nested) (nodes : List Node)
    (after : String) : (o.node nodes after).print.toList = Token.source (blanks ++ head) ++
      ((Node.printAll nodes).toList ++ after.toList ++ ['\x7d']) := by
  obtain ⟨⟨-, hopens, hplain, hfirm, -⟩, -⟩ := block_iff.1 h
  have hread := (Token.spelled_append.1 (hfirm [])).2
  rw [Item.print_opens hopens hread.written hplain, Token.source_append, Item.sourceText,
    String.toList_ofList]

/-- A tidy layout is written with its tokens. -/
theorem print {c : Layout} (h : c.Tidy nested) :
    (Node.printAll c.nodes).toList ++ c.after.toList = Token.source c.tokens := by
  obtain ⟨after, hafter⟩ := Closes.exists nested
  rw [print_nodes h.lawful (h.spelled after hafter).written h.plain, h.kept]

end Tidy

/-! ## Trivia -/

/-- Trivia are laid out in comments. -/
theorem nodes_of_trivia {nested : Bool} {c : Layout} (hc : c.Lawful nested)
    (h : Token.AllTrivia c.tokens) : ∀ n ∈ c.nodes, ∃ k, n = .comment k := by
  induction c generalizing nested with
  | ending blanks => exact List.forall_mem_nil _
  | sign blanks t rest ih => exact ih hc.2.2 fun u hu => h u (by simp [tokens, hu])
  | leaf blanks ts n rest ih =>
    obtain ⟨t, us, rfl, -, hfirst⟩ := hc.2.1.headKind
    have ht := h t (by simp [tokens])
    rcases hfirst with ⟨content, -, rfl, rfl⟩ | hfirst
    · exact List.forall_mem_cons.2 ⟨⟨_, rfl⟩, ih hc.2.2 fun u hu => h u (by simp [tokens, hu])⟩
    · rw [hfirst] at ht
      exact absurd ht Bool.false_ne_true
  | block blanks head o inner innerEnd rest ihInner ihRest =>
    obtain ⟨run, brace, rfl, hkind⟩ := hc.2.1.exists_brace
    have hbrace := h brace (by simp [tokens])
    rw [Token.isTrivia, hkind] at hbrace
    exact absurd hbrace Bool.false_ne_true

/-- Trivia in front of a brace have a tidy layout. -/
theorem exists_trivia {blanks ts : List Token} (hblanks : Token.AllBlank blanks)
    (hts : Token.AllTrivia ts)
    (hspelled : ∀ after, Closes true after → Token.Spelled (blanks ++ ts) after) :
    ∃ c : Layout, c.Tidy true ∧ c.tokens = blanks ++ ts := by
  induction ts generalizing blanks with
  | nil =>
    rw [List.append_nil] at hspelled ⊢
    exact ⟨ending blanks, ⟨hblanks, rfl, List.forall_mem_nil _, hspelled⟩, rfl⟩
  | cons t ts ih =>
    have htail : Token.AllTrivia ts := fun u hu => hts u (List.mem_cons_of_mem t hu)
    have hsplit : blanks ++ t :: ts = blanks ++ [t] ++ ts := by simp
    have ht := hts t List.mem_cons_self
    unfold Token.isTrivia TokenKind.isTrivia at ht
    split at ht
    · next hkind =>
      have hblank : Token.AllBlank (blanks ++ [t]) := by
        intro u hu
        rcases List.mem_append.1 hu with hu | hu
        · exact hblanks u hu
        · rw [List.mem_singleton.1 hu, Token.isWhitespace, hkind]
          rfl
      rw [hsplit] at hspelled ⊢
      exact ih hblank htail hspelled
    · next content hkind =>
      have hback (after : List Char) (hafter : Closes true after) : Token.Spelled (t :: ts) after :=
        (Token.spelled_append.1 (hspelled after hafter)).2
      have hnone : Token.AllBlank [] := List.forall_mem_nil _
      obtain ⟨c, hc, rfl⟩ := ih hnone htail fun after hafter => (hback after hafter).2
      refine ⟨leaf blanks [t] (.comment ⟨content, t.location, Item.sourceText blanks⟩) c,
        Tidy.leaf_iff.2 ⟨hblanks, .comment hkind, ?_, fun after hafter => ?_, hc⟩, ?_⟩
      · intro u hu
        obtain rfl := List.mem_singleton.1 hu
        obtain ⟨after, hafter⟩ := Closes.exists true
        have hwritable : u.Writable := fun name hname => by
          rw [hkind] at hname
          cases hname
        rw [← Token.shown_of_comment (by simp [hafter.ne_nil]) (hback after hafter).1 hkind]
        exact Token.shown_plain hwritable
      · rw [hsplit] at hspelled
        exact (Token.spelled_append.1 (hspelled after hafter)).1
      · rw [tokens, hsplit]
    · exact absurd ht Bool.false_ne_true

end Layout
end GradientFallback
