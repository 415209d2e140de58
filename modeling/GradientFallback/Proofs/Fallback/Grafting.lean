import GradientFallback.Proofs.Fallback.Content
import GradientFallback.Proofs.Fallback.FilterDeclaration
import GradientFallback.Proofs.Stylesheet.Building

/-! # Filters put into layouts

A filter that is put behind a declaration of a block can be laid out again.  A declaration that ends
its block gets a semicolon; that one has to be read as a semicolon.
-/
namespace GradientFallback

/-- A semicolon that is written behind the declaration is read as one. -/
def Declaration.TakesSemicolon (d : Declaration) : Prop :=
  (Token.lex .origin ({ d with semicolon := true } : Declaration).print.toList).getLast?.map
    Token.kind = some .semicolon

instance (d : Declaration) : Decidable d.TakesSemicolon := inferInstanceAs (Decidable (_ = _))

/-- A string without its closing quote takes up the semicolon. -/
example : ¬({ Declaration.make "background" "linear-gradient(red,blue) 'x" with semicolon := false } :
    Declaration).TakesSemicolon := by decide

namespace Token

/-- The semicolon that a declaration gets. -/
def addedSemicolon : Token := ⟨.semicolon, .origin, [';']⟩

theorem firm_addedSemicolon {ts : List Token} (h : Spelled ts [';']) :
    Firm (ts ++ [addedSemicolon]) :=
  Spelled.firm (c := ';') (x := []) _ (spelled_append.2 ⟨h, spelled_sign rfl rfl []⟩) rfl (by decide)

end Token

namespace DeclarationParts

variable {p : DeclarationParts}

theorem print_filter (p : DeclarationParts) (before : String) (after : List Token)
    (semicolon : Bool) (filter : String) :
    ({ p.declaration before after semicolon with property := "filter", value := filter } :
      Declaration).print.toList =
      before.toList ++ "filter".toList ++
        (Token.source p.nameGap ++ p.colon.text ++ Token.source p.gap) ++
        (filter.toList ++ p.split.2.getD []) ++ Token.source after ++
        if semicolon then [';'] else [] := by
  rcases hmark : p.split.2 with _ | marker <;> cases semicolon <;>
    simp [Declaration.print, Declaration.markerText, declaration, hmark, Item.sourceText]

/-- A declaration gets a semicolon, and the filter behind it is written in the same way. -/
theorem print_graft (p : DeclarationParts) (blanks after : List Token) (semicolon : Bool)
    (filter : String) (nodes : List Node) :
    (Node.printAll (Node.graft [] (p.declaration (Item.sourceText blanks) after semicolon) filter
      nodes)).toList =
      Token.source (blanks ++ p.tokens ++ after) ++ ';' :: (Token.source blanks ++
        ("filter".toList ++ (Token.source p.nameGap ++ p.colon.text ++ Token.source p.gap) ++
          (filter.toList ++ p.split.2.getD []) ++ Token.source after) ++
        ((if semicolon then [';'] else []) ++ (Node.printAll nodes).toList)) := by
  have hprint : ({ p.declaration (Item.sourceText blanks) after semicolon with semicolon := true } :
      Declaration).print.toList = _ := Item.print_declaration p (Item.sourceText blanks) after true
  rw [Node.printAll_graft, hprint, print_filter]
  simp [Item.sourceText, Node.printAll]

/-- Parts with a semicolon behind them can stand in front of everything. -/
theorem firm_of_takesSemicolon {blanks : List Token} {x : List Char}
    (h : (p.declaration (Item.sourceText blanks) [] false).TakesSemicolon)
    (hspelled : Token.Spelled (blanks ++ p.tokens) x) (hx : x ≠ []) :
    Token.Firm (blanks ++ p.tokens ++ [Token.addedSemicolon]) := by
  have hprint : ({ p.declaration (Item.sourceText blanks) [] false with semicolon := true } :
      Declaration).print.toList = Token.source (blanks ++ p.tokens) ++ [';'] := by
    have hterminated := Item.print_declaration p (Item.sourceText blanks) [] true
    exact hterminated.trans (by simp [Item.sourceText])
  rw [Declaration.TakesSemicolon, hprint] at h
  obtain ⟨us, hus⟩ : ∃ us, Token.lex .origin (Token.source (blanks ++ p.tokens) ++ [';']) = us :=
    ⟨_, rfl⟩
  have hlex := Token.spelled_lex .origin (Token.source (blanks ++ p.tokens) ++ [';'])
  have hsource := Token.source_lex .origin (Token.source (blanks ++ p.tokens) ++ [';'])
  rw [hus] at h hlex hsource
  obtain ⟨t, ht, hkind⟩ := Option.map_eq_some_iff.1 h
  obtain ⟨ts, rfl⟩ := List.getLast?_eq_some_iff.1 ht
  have htext : t.text = [';'] :=
    Token.text_of_sign (hlex.written t (by simp)) (by rw [hkind]; rfl)
  rw [Token.source_append, Token.source_cons, Token.source_nil, htext, List.append_nil,
    List.append_left_inj] at hsource
  have hread := (Token.spelled_append.1 hlex).1
  have hagree := hspelled.agree hread hsource hx (by simp [htext])
  have hsign : Token.source [t] ++ [] = [';'] := by simp [htext]
  rw [hsign] at hagree
  exact Token.firm_addedSemicolon hagree

end DeclarationParts

namespace Layout

/-- The layout makes the nodes of `c` with a filter among them. -/
structure Grafted (c : Layout) (nodes : List Node) (c' : Layout) : Prop where
  tidy : c'.Tidy true
  source : Token.source c'.tokens = (Node.printAll nodes).toList ++ c.after.toList
  rules : Node.rulesOfAll c'.nodes = Node.rulesOfAll c.nodes
  declares : ∃ d, Node.declaration d ∈ c'.nodes ∧ d.property = "filter"

/-- A filter takes the place of a construct behind the same blanks. -/
theorem tidy_filter {p : DeclarationParts} {value blanks ts more : List Token} {n : Node}
    {rest : Layout} {x : List Char} (hblanks : Token.AllBlank blanks)
    (hold : Token.Spelled (blanks ++ ts) x)
    (hleaf : Leaf true (Item.sourceText blanks) ((p.filter value).tokens ++ more) rest.tokens n)
    (hspelled : ∀ after, Closes true after →
      Token.Spelled ((p.filter value).tokens ++ more) (Token.source rest.tokens ++ after))
    (hrest : rest.Tidy true) : (leaf blanks ((p.filter value).tokens ++ more) n rest).Tidy true := by
  refine Tidy.leaf_iff.2 ⟨hblanks, hleaf, fun t ht => ?_, fun after hafter =>
    spelled_blanks hold hblanks (hspelled after hafter) ⟨DeclarationParts.filterName, _, rfl, rfl⟩,
    hrest⟩
  obtain rfl := List.mem_singleton.1 ht
  exact ⟨fun _ hkind => absurd hkind nofun, fun _ hkind => absurd hkind nofun⟩

section Graft

variable {p : DeclarationParts} {blanks : List Token} {rest : Layout} {filter : String}

/-- A filter behind a declaration with a semicolon. -/
theorem exists_graft_terminated {after : List Token} {semicolon : Token}
    (hg : (leaf blanks (p.tokens ++ after ++ [semicolon])
      (.declaration (p.declaration (Item.sourceText blanks) after true)) rest).Tidy true)
    (hp : p.Lawful) (hafter : Token.AllTrivia after) (hnil : p.value = [] → after = [])
    (hends : semicolon.kind = .semicolon)
    (hproperty : isGradientProperty (Item.sourceText p.name) = true)
    (hfilter : LegacyFilter.IsFilterText filter) :
    ∃ c', Grafted (leaf blanks (p.tokens ++ after ++ [semicolon])
      (.declaration (p.declaration (Item.sourceText blanks) after true)) rest)
      (Node.graft [] (p.declaration (Item.sourceText blanks) after true) filter rest.nodes) c' := by
  obtain ⟨hblanks, hleaf, hplain, hspelled, hrest⟩ := Tidy.leaf_iff.1 hg
  have hread := hspelled ['\x7d'] rfl
  have hparts := (Token.spelled_append.1 hread).2
  have hsign := (Token.spelled_append.1 hparts).2
  have htext : semicolon.text = [';'] :=
    Token.text_of_sign (hsign.written semicolon List.mem_cons_self) (by rw [hends]; rfl)
  obtain ⟨hfront, hback⟩ := Token.spelled_append.1 (Token.spelled_append.1 hparts).1
  have hquiet := hback.quiet hafter (by simp [htext])
  obtain ⟨value, gap, hq, hne, hgap, hfilterRead, hsource⟩ :=
    p.exists_filter hp hfront hproperty hfilter hquiet (c := ';') (by decide) []
  have hfirm := Token.firm_addedSemicolon hfilterRead
  have htidy : (leaf blanks ((p.filter value).tokens ++ (gap ++ [Token.addedSemicolon]))
      (.declaration ((p.filter value).declaration (Item.sourceText blanks) gap true)) rest).Tidy
        true := by
    refine tidy_filter hblanks hread ?_ (fun x _ => ?_) hrest
    · rw [← List.append_assoc]
      exact .declaration rfl hq hgap (fun h => absurd h hne) rfl
    · rw [← List.append_assoc]
      exact hfirm _
  have hold : Token.Firm (blanks ++ (p.tokens ++ after ++ [semicolon])) := by
    rw [← List.append_assoc] at hread ⊢
    exact Token.Spelled.firm (c := ';') _ hread (by rw [hends]; rfl) (by decide)
  refine ⟨_, Tidy.leaf_iff.2 ⟨hblanks, .declaration rfl hp hafter hnil hends, hplain,
    fun x _ => hold _, htidy⟩, ?_, rfl, _, List.mem_cons_of_mem _ List.mem_cons_self, rfl⟩
  have hend : (leaf blanks (p.tokens ++ after ++ [semicolon])
    (.declaration (p.declaration (Item.sourceText blanks) after true)) rest).after = rest.after := rfl
  rw [DeclarationParts.print_graft, ← hsource, hend]
  simp [tokens, htext, Token.addedSemicolon, hrest.print]

theorem rulesOfAll_of_trivia {nested : Bool} {c : Layout} (hc : c.Lawful nested)
    (h : Token.AllTrivia c.tokens) : Node.rulesOfAll c.nodes = [] := by
  rw [Node.rulesOfAll_eq_flatMap, List.flatMap_eq_nil_iff]
  intro n hn
  obtain ⟨k, rfl⟩ := nodes_of_trivia hc h n hn
  rfl

/-- With a semicolon of its own, a declaration that ended its block stands in front of anything. -/
theorem Tidy.leaf_addedSemicolon {rest' : Layout}
    (hg : (leaf blanks p.tokens
      (.declaration (p.declaration (Item.sourceText blanks) [] false)) rest).Tidy true)
    (hp : p.Lawful) (hends : (p.declaration (Item.sourceText blanks) [] false).TakesSemicolon)
    (hrest' : rest'.Tidy true) :
    (leaf blanks (p.tokens ++ [] ++ [Token.addedSemicolon])
      (.declaration (p.declaration (Item.sourceText blanks) [] true)) rest').Tidy true := by
  obtain ⟨hblanks, -, hplain, hspelled, -⟩ := Tidy.leaf_iff.1 hg
  have hfirm := DeclarationParts.firm_of_takesSemicolon hends (hspelled ['\x7d'] rfl) (by simp)
  have hplain' : ∀ t ∈ (p.tokens ++ [] ++ [Token.addedSemicolon]).take 1, t.Plain := by
    obtain ⟨t, us, htokens⟩ : ∃ t us, p.tokens = t :: us :=
      List.exists_cons_of_ne_nil (by simp [DeclarationParts.tokens])
    rw [htokens] at hplain ⊢
    exact hplain
  have hspelled' (x : List Char) :
      Token.Spelled (blanks ++ (p.tokens ++ [] ++ [Token.addedSemicolon])) x := by
    simpa using hfirm x
  exact Tidy.leaf_iff.2 ⟨hblanks, .declaration rfl hp Token.allTrivia_nil (fun _ => rfl) rfl,
    hplain', fun x _ => hspelled' _, hrest'⟩

/-- A filter behind a declaration that ends its block.  The trivia behind the declaration are laid
out anew behind the filter. -/
theorem exists_graft_last
    (hg : (leaf blanks p.tokens
      (.declaration (p.declaration (Item.sourceText blanks) [] false)) rest).Tidy true)
    (hp : p.Lawful) (htrivia : Token.AllTrivia rest.tokens)
    (hproperty : isGradientProperty (Item.sourceText p.name) = true)
    (hfilter : LegacyFilter.IsFilterText filter)
    (hends : (p.declaration (Item.sourceText blanks) [] false).TakesSemicolon) :
    ∃ c', Grafted (leaf blanks p.tokens
      (.declaration (p.declaration (Item.sourceText blanks) [] false)) rest)
      (Node.graft [] (p.declaration (Item.sourceText blanks) [] false) filter rest.nodes) c' := by
  obtain ⟨hblanks, -, -, hspelled, hrest⟩ := Tidy.leaf_iff.1 hg
  have hbrace : Closes true ['\x7d'] := rfl
  have hread := hspelled _ hbrace
  have hfront := (Token.spelled_append.1 hread).2
  have hquiet := (hrest.spelled _ hbrace).quiet htrivia (List.cons_ne_nil _ _)
  obtain ⟨value, gap, hq, hne, hgap, hfilterRead, hsource⟩ :=
    p.exists_filter hp hfront hproperty hfilter hquiet (c := '\x7d') (by decide) []
  have hbehind (after : List Char) (hafter : Closes true after) :
      Token.Spelled ((p.filter value).tokens ++ gap) after :=
    hbrace.spelled hafter hfilterRead
  have hnone : Token.AllBlank [] := nofun
  obtain ⟨rest', hrest', hrestTokens⟩ := exists_trivia hnone hgap
    fun after hafter => (Token.spelled_append.1 (hbehind after hafter)).2
  rw [List.nil_append] at hrestTokens
  rw [← hrestTokens] at hgap hbehind hsource
  have htidy : (leaf blanks ((p.filter value).tokens ++ []) (.declaration
      ((p.filter value).declaration (Item.sourceText blanks) [] false)) rest').Tidy true := by
    refine tidy_filter hblanks hread ?_ (fun x hx => ?_) hrest'
    · rw [List.append_nil]
      exact .lastDeclaration rfl hq hgap fun h => absurd h hne
    · rw [List.append_nil]
      exact (Token.spelled_append.1 (hbehind x hx)).1
  refine ⟨_, hg.leaf_addedSemicolon hp hends htidy, ?_, ?_, _,
    List.mem_cons_of_mem _ List.mem_cons_self, rfl⟩
  · have hend : (leaf blanks p.tokens
      (.declaration (p.declaration (Item.sourceText blanks) [] false)) rest).after = rest.after := rfl
    rw [Token.source_append, ← hrest.print] at hsource
    rw [DeclarationParts.print_graft, hend]
    simp [tokens, Token.addedSemicolon, hsource]
  · have hnone := rulesOfAll_of_trivia hrest.lawful htrivia
    have hnone' := rulesOfAll_of_trivia hrest'.lawful hgap
    simp [Layout.nodes, Node.rulesOfAll, Node.rules, hnone, hnone']

/-- A filter is put in behind the leaf that stands first. -/
theorem Grafted.behind_leaf {blanks ts : List Token} {n : Node} {rest rest' : Layout}
    {nodes : List Node} (h : Grafted rest nodes rest') (hc : (leaf blanks ts n rest).Tidy true)
    (htrivia : ¬Token.AllTrivia rest.tokens) :
    Grafted (leaf blanks ts n rest) (n :: nodes) (leaf blanks ts n rest') where
  tidy := hc.leaf_move htrivia h.tidy
  source := by
    have hend : (leaf blanks ts n rest).after = rest.after := rfl
    rw [tokens, Token.source_append, h.source, hend, Node.printAll, String.toList_append,
      hc.print_leaf, List.append_assoc]
  rules := congrArg (n.rules ++ ·) h.rules
  declares := h.declares.imp fun _ hd => ⟨List.mem_cons_of_mem n hd.1, hd.2⟩

/-- A filter is put in behind the block that stands first. -/
theorem Grafted.behind_block {blanks head : List Token} {o : Opening} {inner rest rest' : Layout}
    {innerEnd : Token} {nodes : List Node} (h : Grafted rest nodes rest')
    (hc : (block blanks head o inner innerEnd rest).Tidy true) :
    Grafted (block blanks head o inner innerEnd rest) (o.node inner.nodes inner.after :: nodes)
      (block blanks head o inner innerEnd rest') := by
  obtain ⟨hopens, hinner, hrest⟩ := Tidy.block_iff.1 hc
  refine ⟨Tidy.block_iff.2 ⟨hopens, hinner, h.tidy⟩, ?_,
    congrArg ((o.node inner.nodes inner.after).rules ++ ·) h.rules,
    h.declares.imp fun _ hd => ⟨List.mem_cons_of_mem _ hd.1, hd.2⟩⟩
  have hend : (block blanks head o inner innerEnd rest).after = rest.after := rfl
  rw [tokens, Token.source_append, Token.source_append, Token.source_cons, h.source, hend,
    Node.printAll, String.toList_append, hc.print_block, hinner.print, hopens.2.2.2.2.2]
  simp only [List.append_assoc, List.cons_append, List.nil_append]

/-- A filter can be put behind every declaration of a background in a block. -/
theorem Tidy.exists_graft {c : Layout} {front back : List Node} {d : Declaration}
    (hc : c.Tidy true) (hnodes : c.nodes = front ++ .declaration d :: back)
    (hproperty : isGradientProperty d.property = true) (hfilter : LegacyFilter.IsFilterText filter)
    (hends : d.semicolon = false → d.TakesSemicolon) :
    ∃ c', Grafted c (Node.graft front d filter back) c' := by
  induction c generalizing front with
  | ending blanks => exact absurd hnodes (by simp [Layout.nodes])
  | sign blanks t rest ih => exact absurd hc Tidy.not_sign
  | leaf blanks ts n rest ih =>
    cases front with
    | nil =>
      obtain ⟨rfl, rfl⟩ := List.cons.inj hnodes
      have hleaf := (Tidy.leaf_iff.1 hc).2.1
      obtain ⟨more, hmore⟩ : ∃ more, rest.tokens = more := ⟨_, rfl⟩
      rw [hmore] at hleaf
      cases hleaf with
      | declaration inside lawful after_trivia after_nil ends =>
        exact exists_graft_terminated hc lawful after_trivia after_nil ends hproperty hfilter
      | lastDeclaration inside lawful rest_trivia rest_nil =>
        rw [← hmore] at rest_trivia
        exact exists_graft_last hc lawful rest_trivia hproperty hfilter (hends rfl)
    | cons m front =>
      obtain ⟨rfl, hrestNodes⟩ := List.cons.inj hnodes
      have hrest := (Tidy.leaf_iff.1 hc).2.2.2.2
      obtain ⟨rest', hgrafted⟩ := ih hrest hrestNodes
      have htrivia : ¬Token.AllTrivia rest.tokens := by
        intro h
        obtain ⟨k, hk⟩ := nodes_of_trivia hrest.lawful h (.declaration d) (by simp [hrestNodes])
        cases hk
      exact ⟨_, hgrafted.behind_leaf hc htrivia⟩
  | block blanks head o inner innerEnd rest ihInner ihRest =>
    cases front with
    | nil => cases o <;> cases (List.cons.inj hnodes).1
    | cons m front =>
      obtain ⟨rfl, hrestNodes⟩ := List.cons.inj hnodes
      obtain ⟨rest', hgrafted⟩ := ihRest (Tidy.block_iff.1 hc).2.2 hrestNodes
      exact ⟨_, hgrafted.behind_block hc⟩

end Graft

end Layout
end GradientFallback
