import GradientFallback.Fallback.Rule
import GradientFallback.Proofs.Fallback.FilterTokens

/-! # The declaration of a legacy filter

A filter is written between the blanks, the comments and the mark of importance of the declaration
it was made for.  So it is a declaration again, and it is read in front of every sign.
-/
namespace GradientFallback

/-- A list of tokens is read with the first of them. -/
theorem Token.Spelled.front {ts us : List Token} {x : List Char} (h : Spelled (ts ++ us) x)
    (hts : ts ≠ []) :
    ∃ k n, Scan.token (source ts ++ (source us ++ x)) = some (k, n) ∧ n ≤ (source ts).length := by
  obtain ⟨t, ts, rfl⟩ := List.exists_cons_of_ne_nil hts
  obtain ⟨hfront, -⟩ := spelled_append.1 h
  refine ⟨t.kind, t.text.length, ?_, by rw [source_cons, List.length_append]; omega⟩
  rw [source_cons, List.append_assoc]
  exact hfront.1

/-- A value with a colon is not only a mark of importance. -/
theorem Item.splitMarker_ne_nil {value : List Char} (h : ':' ∈ value) :
    (splitMarker value).1 ≠ [] := by
  intro hnil
  have hsplit := splitMarker_append value
  rw [hnil, List.nil_append] at hsplit
  rcases hmark : (splitMarker value).2 with _ | marker
  · rw [hmark] at hsplit
    rw [← hsplit] at h
    exact absurd h List.not_mem_nil
  · rw [hmark, Option.getD_some] at hsplit
    rw [← hsplit] at h
    exact absurd (isMarkChar_of_splitMarker hmark _ h) (by decide)

theorem LegacyFilter.passes_tokens (start finish : List Char) (direction : Char) :
    Token.Passes Item.endsHead 0 (tokens start finish direction) ∧
      Token.depthBehind 0 (tokens start finish direction) = 0 := by
  constructor
  · simp [tokens, Token.passes_cons, Token.nest, TokenKind.opens, TokenKind.closes, Item.endsHead]
  · simp [tokens, Token.nest, TokenKind.opens, TokenKind.closes]

theorem LegacyFilter.head_tokens (start finish : List Char) (direction : Char) (x : List Char) :
    (Token.source (tokens start finish direction) ++ x).head? = some 'p' := by
  rw [tokens, Token.source_cons]
  rfl

namespace DeclarationParts

variable {p : DeclarationParts}

theorem Lawful.colon_text {x : List Char} (hp : p.Lawful) (h : Token.Spelled p.tokens x) :
    p.colon.text = [':'] :=
  Token.text_of_sign (h.written p.colon (by simp [tokens])) (by rw [hp.colon]; rfl)

theorem Lawful.value_ne_nil (hp : p.Lawful)
    (hname : ∀ cs, Token.source p.name ≠ '-' :: '-' :: cs) : p.value ≠ [] := by
  intro hnil
  rcases hp.has_value with hvalue | ⟨cs, hcs⟩
  · rw [split, hnil] at hvalue
    exact hvalue rfl
  · exact hname cs hcs

theorem source_of_isGradientProperty (h : isGradientProperty (Item.sourceText p.name) = true) :
    ∃ u, Token.source p.name = 'b' :: u ∧ ∀ d ∈ u, Scan.isNameChar d = true := by
  simp only [isGradientProperty, Bool.or_eq_true, beq_iff_eq, Item.sourceText] at h
  rcases h with hname | hname
  · exact ⟨"ackground".toList, String.ofList_injective hname, List.all_eq_true.1 (by decide)⟩
  · exact ⟨"ackground-image".toList, String.ofList_injective hname,
      List.all_eq_true.1 (by decide)⟩

/-- The name of a background ends in front of the colon. -/
theorem Lawful.endsName {x : List Char} (hp : p.Lawful) (h : Token.Spelled p.tokens x)
    (hproperty : isGradientProperty (Item.sourceText p.name) = true) :
    ∃ after, Scan.EndsName (Token.source p.nameGap ++ ':' :: after) := by
  obtain ⟨u, hname, hu⟩ := source_of_isGradientProperty hproperty
  have hcolon := hp.colon_text h
  simp only [tokens, List.append_assoc, List.cons_append] at h
  obtain ⟨k, n, hread, hn⟩ := h.front hp.name_ne_nil
  rw [hname] at hread hn
  have hends := Scan.endsName_of_token (by decide) hu hread hn
  rw [Token.source_append, Token.source_cons, hcolon, List.append_assoc] at hends
  exact ⟨_, hends⟩

/-- The word in front of the colon of a filter. -/
def filterName : Token := ⟨.ident "filter", .origin, "filter".toList⟩

/-- A filter that takes over all but name and value from the parts. -/
def filter (p : DeclarationParts) (value : List Token) : DeclarationParts :=
  ⟨[filterName], p.nameGap, p.colon, p.gap, value⟩

theorem filter_tokens (p : DeclarationParts) (value : List Token) :
    (p.filter value).tokens = filterName :: p.nameGap ++ p.colon :: p.gap ++ value := rfl

theorem source_filter (p : DeclarationParts) (value : List Token) :
    Token.source (p.filter value).tokens = "filter".toList ++
      (Token.source p.nameGap ++ p.colon.text ++ Token.source p.gap) ++ Token.source value := by
  have hname : filterName.text = "filter".toList := rfl
  simp only [filter_tokens, Token.source_append, Token.source_cons, hname, List.append_assoc,
    List.cons_append]

theorem passes_filterName (hp : p.Lawful) :
    Token.Passes Item.endsHead 0 (filterName :: p.nameGap ++ p.colon :: p.gap) ∧
      Token.depthBehind 0 (filterName :: p.nameGap ++ p.colon :: p.gap) = 0 := by
  have hname : Token.nest 0 filterName.kind = 0 := rfl
  have hsign : Token.nest 0 .colon = 0 := rfl
  constructor
  · rw [Token.passes_append, Token.passes_cons, Token.passes_cons, Token.depthBehind_cons, hname,
      Token.depthBehind_trivia hp.nameGap, hp.colon, hsign]
    exact ⟨⟨fun _ => rfl, Token.passes_trivia Item.isTrivia_endsHead hp.nameGap 0⟩, fun _ => rfl,
      Token.passes_trivia Item.isTrivia_endsHead hp.gap 0⟩
  · rw [Token.depthBehind_append, Token.depthBehind_cons, Token.depthBehind_cons, hname,
      Token.depthBehind_trivia hp.nameGap, hp.colon, hsign, Token.depthBehind_trivia hp.gap]

/-- The template with a mark of importance makes a declaration. -/
theorem filter_lawful (hp : p.Lawful) (start finish : List Char) (direction : Char)
    {mark : List Token} (hmark : Token.AllQuiet mark)
    (hlast : ∀ t ∈ mark.getLast?, t.isTrivia = false) :
    (p.filter (LegacyFilter.tokens start finish direction ++ mark)).Lawful := by
  obtain ⟨hfront, hfrontClosed⟩ := passes_filterName hp
  obtain ⟨htemplate, htemplateClosed⟩ := LegacyFilter.passes_tokens start finish direction
  have hquiet (k : TokenKind) (h : k.isQuiet = true) : Item.endsHead k = false := by
    cases k <;> first | rfl | exact absurd h nofun
  refine ⟨List.cons_ne_nil _ _, rfl, fun t ht => ?_, hp.nameGap, hp.colon, hp.gap, fun t ht => ?_,
    ?_, ⟨fun _ => rfl, trivial⟩, rfl, ?_, ?_, .inl (Item.splitMarker_ne_nil ?_)⟩
  · cases ht
    rfl
  · cases ht
    rfl
  · intro t ht
    rw [filter, List.getLast?_append] at ht
    rcases hend : mark.getLast? with _ | u
    · rw [hend] at ht
      cases ht
      rfl
    · rw [hend] at ht
      cases ht
      exact hlast t hend
  · rw [filter_tokens]
    refine Token.passes_append.2 ⟨hfront, ?_⟩
    rw [hfrontClosed]
    refine Token.passes_append.2 ⟨htemplate, ?_⟩
    rw [htemplateClosed]
    exact Token.passes_quiet hquiet hmark 0
  · rw [filter_tokens, Token.depthBehind_append, hfrontClosed, Token.depthBehind_append,
      htemplateClosed, Token.depthBehind_quiet hmark]
  · rw [filter, Token.source_append, LegacyFilter.source_tokens]
    refine List.mem_append_left _ ?_
    simp only [String.toList_append, List.append_assoc]
    exact List.mem_append_left _ (by decide)

/-- The name of a filter is read in the place of the name of a background. -/
theorem spelled_filterName {x y : List Char} (hp : p.Lawful) (hspelled : Token.Spelled p.tokens x)
    (hproperty : isGradientProperty (Item.sourceText p.name) = true)
    (hy : ∀ c ∈ y.head?, isBlank c = false) :
    Token.Spelled (filterName :: p.nameGap ++ p.colon :: p.gap) y := by
  have hcolon := hp.colon_text hspelled
  have halike (xs ys : List Char) : Scan.Alike (':' :: xs) (':' :: ys) :=
    Token.alike_of_sign? (k := .colon) rfl (by decide) xs ys
  obtain ⟨after, hends⟩ := hp.endsName hspelled hproperty
  have hvalue : p.value ≠ [] := by
    obtain ⟨u, hname, -⟩ := source_of_isGradientProperty hproperty
    refine hp.value_ne_nil fun cs hcs => ?_
    rw [hname] at hcs
    exact absurd (List.cons.inj hcs).1 (by decide)
  simp only [tokens, Token.spelled_append, List.append_assoc, List.cons_append] at hspelled
  obtain ⟨-, hnameGap, -, hbehind⟩ := hspelled
  obtain ⟨hgap, hread⟩ := Token.spelled_append.1 hbehind
  refine Token.spelled_append.2 ⟨⟨?_, ?_⟩, ?_, ?_⟩
  · rw [Token.source_cons, hcolon, List.append_assoc]
    exact Scan.token_ident (by decide) (List.all_eq_true.1 (by decide)) (hends.alike (halike after _))
  · rw [Token.source_cons, hcolon] at hnameGap ⊢
    exact hnameGap.alike (halike _ _)
  · exact (Token.spelled_sign hcolon (by rw [hp.colon]; rfl) _).1
  · refine hgap.trivia hp.gap (fun hnil => hvalue ?_) hy
    exact Token.source_eq_nil hread (List.append_eq_nil_iff.1 hnil).1

/-- The declaration of a filter is read in front of every sign, with what it takes over from the
declaration of a background, and with trivia behind it. -/
theorem exists_filter {filter : String} {x tail : List Char} {c : Char}
    (hp : p.Lawful) (hspelled : Token.Spelled p.tokens x)
    (hproperty : isGradientProperty (Item.sourceText p.name) = true)
    (hfilter : LegacyFilter.IsFilterText filter) (htail : Scan.Quiet tail)
    (hc : Scan.isStop c = true) (after : List Char) :
    ∃ value gap, (p.filter value).Lawful ∧ value ≠ [] ∧ Token.AllTrivia gap ∧
      Token.Spelled ((p.filter value).tokens ++ gap) (c :: after) ∧
      Token.source ((p.filter value).tokens ++ gap) = "filter".toList ++
        (Token.source p.nameGap ++ p.colon.text ++ Token.source p.gap) ++
        (filter.toList ++ p.split.2.getD []) ++ tail := by
  obtain ⟨start, finish, direction, hfirm, hsource⟩ := LegacyFilter.exists_tokens hfilter
  have hmarker : Scan.Quiet (p.split.2.getD [] ++ tail) := by
    rcases hmark : p.split.2 with _ | marker
    · exact htail
    · exact (Scan.Quiet.of_chars (Item.isMarkChar_of_splitMarker hmark)).append htail
  obtain ⟨ts, hts, hquiet, hread⟩ := Scan.exists_quiet hmarker hc after
  obtain ⟨mark, gap, rfl, hlast, hgap⟩ := Item.exists_significant ts
  have hlawful := filter_lawful hp start finish direction
    (fun t ht => hquiet t (List.mem_append_left gap ht)) hlast
  have hhead := LegacyFilter.head_tokens start finish direction
  have hne : LegacyFilter.tokens start finish direction ≠ [] := List.cons_ne_nil _ _
  generalize LegacyFilter.tokens start finish direction = template at hfirm hsource hlawful hhead hne
  refine ⟨template ++ mark, gap, hlawful, List.append_ne_nil_of_left_ne_nil hne mark, hgap, ?_, ?_⟩
  · rw [filter_tokens, List.append_assoc, List.append_assoc template]
    refine Token.spelled_append.2 ⟨spelled_filterName hp hspelled hproperty ?_,
      Token.spelled_append.2 ⟨hfirm _, hread⟩⟩
    rw [Token.source_append, List.append_assoc, hhead]
    intro d hd
    cases hd
    rfl
  · rw [Token.source_append, source_filter, Token.source_append, hsource, List.append_assoc,
      List.append_assoc filter.toList, ← Token.source_append, hts]
    simp only [List.append_assoc]

end DeclarationParts
end GradientFallback
