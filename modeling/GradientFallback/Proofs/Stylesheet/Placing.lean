import GradientFallback.Proofs.Stylesheet.Layout
import GradientFallback.Proofs.Token.Tiling
import Mathlib.Data.List.Basic

/-! # Where tokens stand does not matter

A list of tokens is laid out in the same way wherever its tokens stand; only the places of the
nodes are others.
-/
namespace GradientFallback

namespace Token

/-- The token without its place. -/
def unplaced (t : Token) : Token := { t with location := .origin }

/-- The lists have the same tokens up to the places where they stand. -/
def Same (ts us : List Token) : Prop := ts.map unplaced = us.map unplaced

theorem unplaced_eq_iff {t u : Token} : t.unplaced = u.unplaced ↔ t.kind = u.kind ∧ t.text = u.text := by
  rcases t with ⟨kind, place, text⟩
  rcases u with ⟨kind', place', text'⟩
  simp [unplaced]

theorem same_settle (start : Location) (ts : List Token) : Same (settle start ts) ts := by
  induction ts generalizing start with
  | nil => rfl
  | cons t ts ih => exact congrArg (t.unplaced :: ·) (ih _)

namespace Same

variable {ts us : List Token}

theorem cons_right {u : Token} (h : Same ts (u :: us)) :
    ∃ t vs, ts = t :: vs ∧ t.kind = u.kind ∧ t.text = u.text ∧ Same vs us := by
  obtain ⟨t, vs, rfl, ht, hvs⟩ := List.map_eq_cons_iff.1 h
  exact ⟨t, vs, rfl, (unplaced_eq_iff.1 ht).1, (unplaced_eq_iff.1 ht).2, hvs⟩

theorem nil_right (h : Same ts []) : ts = [] := List.map_eq_nil_iff.1 h

theorem append_right {vs : List Token} (h : Same ts (us ++ vs)) :
    ∃ us' vs', ts = us' ++ vs' ∧ Same us' us ∧ Same vs' vs := by
  unfold Same at h
  rw [List.map_append] at h
  obtain ⟨us', vs', rfl, hus, hvs⟩ := List.map_eq_append_iff.1 h
  exact ⟨us', vs', rfl, hus, hvs⟩

theorem append {ts' us' : List Token} (h : Same ts us) (h' : Same ts' us') :
    Same (ts ++ ts') (us ++ us') := by
  rw [Same, List.map_append, List.map_append, h, h']

theorem take (h : Same ts us) (n : Nat) : Same (ts.take n) (us.take n) := by
  rw [Same, List.map_take, List.map_take, h]

theorem singleton_right {u : Token} (h : Same ts [u]) :
    ∃ t, ts = [t] ∧ t.kind = u.kind ∧ t.text = u.text := by
  obtain ⟨t, vs, rfl, hkind, htext, hvs⟩ := h.cons_right
  exact ⟨t, by rw [hvs.nil_right], hkind, htext⟩

/-- What is said of the kinds and texts of all tokens is said of the others. -/
theorem forall_mem {P : TokenKind → List Char → Prop} (h : Same ts us) (hus : ∀ u ∈ us, P u.kind u.text) :
    ∀ t ∈ ts, P t.kind t.text := by
  intro t ht
  have hmem : t.unplaced ∈ us.map unplaced := by
    rw [← h]
    exact List.mem_map_of_mem ht
  obtain ⟨u, hu, hut⟩ := List.mem_map.1 hmem
  rw [← (unplaced_eq_iff.1 hut).1, ← (unplaced_eq_iff.1 hut).2]
  exact hus u hu

theorem eq_nil_iff (h : Same ts us) : ts = [] ↔ us = [] := by
  rw [← List.map_eq_nil_iff (f := unplaced), h, List.map_eq_nil_iff]

theorem source (h : Same ts us) : Token.source ts = Token.source us := by
  induction us generalizing ts with
  | nil => rw [h.nil_right]
  | cons u us ih =>
    obtain ⟨t, vs, rfl, -, htext, hvs⟩ := h.cons_right
    rw [source_cons, source_cons, htext, ih hvs]

theorem headKind (h : Same ts us) : Token.headKind ts = Token.headKind us := by
  cases us with
  | nil => rw [h.nil_right]
  | cons u us =>
    obtain ⟨t, vs, rfl, hkind, -, -⟩ := h.cons_right
    exact hkind

theorem depthBehind (h : Same ts us) (depth : Nat) :
    Token.depthBehind depth ts = Token.depthBehind depth us := by
  induction us generalizing ts depth with
  | nil => rw [h.nil_right]
  | cons u us ih =>
    obtain ⟨t, vs, rfl, hkind, -, hvs⟩ := h.cons_right
    rw [depthBehind_cons, depthBehind_cons, hkind, ih hvs]

theorem passes {stop : TokenKind → Bool} {depth : Nat} (h : Same ts us)
    (hus : Passes stop depth us) : Passes stop depth ts := by
  induction us generalizing ts depth with
  | nil =>
    rw [h.nil_right]
    trivial
  | cons u us ih =>
    obtain ⟨t, vs, rfl, hkind, -, hvs⟩ := h.cons_right
    rw [passes_cons] at hus ⊢
    rw [hkind]
    exact ⟨hus.1, ih hvs hus.2⟩

theorem allBlank (h : Same ts us) (hus : AllBlank us) : AllBlank ts :=
  h.forall_mem (P := fun k _ => k.isWhitespace = true) hus

theorem allTrivia (h : Same ts us) (hus : AllTrivia us) : AllTrivia ts :=
  h.forall_mem (P := fun k _ => k.isTrivia = true) hus

theorem getLast? (h : Same ts us) (hus : ∀ u ∈ us.getLast?, u.isTrivia = false) :
    ∀ t ∈ ts.getLast?, t.isTrivia = false := by
  intro t ht
  have hlast : (us.map unplaced).getLast? = some t.unplaced := by
    rw [← h, List.getLast?_map, Option.mem_def.1 ht]
    rfl
  rw [List.getLast?_map, Option.map_eq_some_iff] at hlast
  obtain ⟨u, hu, hut⟩ := hlast
  have htrivia := hus u hu
  rwa [isTrivia, (unplaced_eq_iff.1 hut).1] at htrivia

theorem head? (h : Same ts us) (hus : ∀ u ∈ us.head?, u.isTrivia = false) :
    ∀ t ∈ ts.head?, t.isTrivia = false := by
  intro t ht
  have hkind := h.headKind
  cases us with
  | nil =>
    rw [h.nil_right] at ht
    exact absurd ht nofun
  | cons u us =>
    obtain ⟨v, vs, rfl, hv, -, -⟩ := h.cons_right
    cases ht
    rw [isTrivia, hv]
    exact hus u rfl

end Same

end Token

/-! ## Nodes without their places -/

mutual

/-- The node with all places set to the start of a text. -/
def Node.unplaced : Node → Node
  | .rule head nodes after =>
    .rule { head with location := .origin } (Node.unplacedAll nodes) after
  | .atRule head nodes after =>
    .atRule { head with location := .origin } (Node.unplacedAll nodes) after
  | .statement head semicolon => .statement { head with location := .origin } semicolon
  | .declaration d => .declaration { d with location := .origin }
  | .comment c => .comment { c with location := .origin }

def Node.unplacedAll : List Node → List Node
  | [] => []
  | n :: ns => n.unplaced :: Node.unplacedAll ns

end

theorem Node.unplacedAll_eq_map (nodes : List Node) : unplacedAll nodes = nodes.map unplaced := by
  induction nodes with
  | nil => rfl
  | cons n nodes ih => rw [unplacedAll, ih, List.map_cons]

/-! ## Constructs at other places -/

theorem DeclarationParts.exists_same {p : DeclarationParts} {ts : List Token}
    (hts : Token.Same ts p.tokens) (hp : p.Lawful) :
    ∃ q : DeclarationParts, q.Lawful ∧ ts = q.tokens ∧ (q.value = [] → p.value = []) ∧
      ∀ before semicolon {after after' : List Token}, Token.Same after' after →
        (Node.declaration (q.declaration before after' semicolon)).unplaced =
          (Node.declaration (p.declaration before after semicolon)).unplaced := by
  have hall := hts
  obtain ⟨front, value, rfl, hfront, hvalue⟩ := hts.append_right
  obtain ⟨head, more, rfl, hhead, hmore⟩ := hfront.append_right
  obtain ⟨name, nameGap, rfl, hname, hnameGap⟩ := hhead.append_right
  obtain ⟨colon, gap, rfl, hkind, htext, hgap⟩ := hmore.cons_right
  have hsplit : Item.splitMarker (Token.source value) = p.split := by
    rw [hvalue.source]
    rfl
  refine ⟨⟨name, nameGap, colon, gap, value⟩, ?_, rfl, hvalue.eq_nil_iff.1, ?_⟩
  · exact {
      name_ne_nil := fun hnil => hp.name_ne_nil (hname.eq_nil_iff.1 hnil)
      starts := by rw [hname.headKind]; exact hp.starts
      name_last := hname.getLast? hp.name_last
      nameGap := hnameGap.allTrivia hp.nameGap
      colon := hkind.trans hp.colon
      gap := hgap.allTrivia hp.gap
      value_first := hvalue.head? hp.value_first
      value_last := hvalue.getLast? hp.value_last
      name_passes := hname.passes hp.name_passes
      name_closed := by rw [hname.depthBehind]; exact hp.name_closed
      passes := hall.passes hp.passes
      closed := (hall.depthBehind 0).trans hp.closed
      has_value := by
        rw [hname.source]
        exact hp.has_value.imp_left fun h => by rwa [split, hsplit] }
  · intro before semicolon after after' hafter
    simp only [Node.unplaced, declaration, split, hsplit, Item.sourceText, hname.source,
      hnameGap.source, htext, hgap.source, hafter.source]

theorem Leaf.exists_same {nested : Bool} {before : String} {ts rest ts' rest' : List Token}
    {n : Node} (h : Leaf nested before ts rest n) (hts : Token.Same ts' ts)
    (hrest : Token.Same rest' rest) :
    ∃ n', Leaf nested before ts' rest' n' ∧ n'.unplaced = n.unplaced := by
  have hrun {t : Token} {run run' : List Token} {t' : Token} {name : String}
      (hsame : Token.Same run' run) :
      ({ AtRuleHead.ofRun before name t'.location run' with location := .origin } : AtRuleHead) =
        { AtRuleHead.ofRun before name t.location run with location := .origin } := by
    simp only [AtRuleHead.ofRun, hsame.source]
  cases h with
  | @comment t content _ kind =>
    obtain ⟨t', rfl, hkind, -⟩ := hts.singleton_right
    exact ⟨_, .comment (hkind.trans kind), rfl⟩
  | @statement t semicolon name run _ kind passes closed ends =>
    obtain ⟨t', more, rfl, hkind, -, hmore⟩ := hts.cons_right
    obtain ⟨run', signs, rfl, hsame, hsigns⟩ := hmore.append_right
    obtain ⟨s, rfl, hs, -⟩ := hsigns.singleton_right
    refine ⟨_, .statement (hkind.trans kind) (hsame.passes passes)
      ((hsame.depthBehind 0).trans closed) (hs.trans ends), ?_⟩
    exact congrArg (Node.statement · true) (hrun hsame)
  | @lastStatement t name run kind passes closed =>
    obtain ⟨t', run', rfl, hkind, -, hsame⟩ := hts.cons_right
    obtain rfl := hrest.nil_right
    refine ⟨_, .lastStatement (hkind.trans kind) (hsame.passes passes)
      fun hnested => (hsame.depthBehind 0).trans (closed hnested), ?_⟩
    exact congrArg (Node.statement · false) (hrun hsame)
  | @declaration p after _ semicolon inside lawful after_trivia after_nil ends =>
    obtain ⟨front, signs, rfl, hfront, hsigns⟩ := hts.append_right
    obtain ⟨parts, after', rfl, hparts, hafter⟩ := hfront.append_right
    obtain ⟨s, rfl, hs, -⟩ := hsigns.singleton_right
    obtain ⟨q, hq, rfl, hnil, hsame⟩ := DeclarationParts.exists_same hparts lawful
    refine ⟨_, .declaration inside hq (hafter.allTrivia after_trivia)
      (fun h => hafter.eq_nil_iff.2 (after_nil (hnil h))) (hs.trans ends), hsame before true hafter⟩
  | @lastDeclaration p _ inside lawful rest_trivia rest_nil =>
    obtain ⟨q, hq, rfl, hnil, hsame⟩ := DeclarationParts.exists_same hts lawful
    exact ⟨_, .lastDeclaration inside hq (hrest.allTrivia rest_trivia)
      fun h => hrest.eq_nil_iff.2 (rest_nil (hnil h)), hsame before false rfl⟩

theorem Opens.exists_same {before : String} {head head' : List Token} {o : Opening}
    (h : Opens before head o) (hhead : Token.Same head' head) :
    ∃ o', Opens before head' o' ∧ ∀ nodes nodes' after,
      Node.unplacedAll nodes' = Node.unplacedAll nodes →
        (o'.node nodes' after).unplaced = (o.node nodes after).unplaced := by
  cases h with
  | @rule run brace ends starts passes closed =>
    have hstarts := hhead.headKind
    obtain ⟨run', signs, rfl, hsame, hsigns⟩ := hhead.append_right
    obtain ⟨b, rfl, hb, -⟩ := hsigns.singleton_right
    refine ⟨_, .rule (hb.trans ends) (by rw [hstarts]; exact starts) (hsame.passes passes)
      ((hsame.depthBehind 0).trans closed), fun nodes nodes' after hnodes => ?_⟩
    simp only [Opening.node, Node.unplaced, RuleHead.ofRun, hsame.source, hnodes]
  | @atRule t brace name run kind passes closed ends =>
    obtain ⟨t', more, rfl, hkind, -, hmore⟩ := hhead.cons_right
    obtain ⟨run', signs, rfl, hsame, hsigns⟩ := hmore.append_right
    obtain ⟨b, rfl, hb, -⟩ := hsigns.singleton_right
    refine ⟨_, .atRule (hkind.trans kind) (hsame.passes passes)
      ((hsame.depthBehind 0).trans closed) (hb.trans ends), fun nodes nodes' after hnodes => ?_⟩
    simp only [Opening.node, Node.unplaced, AtRuleHead.ofRun, hsame.source, hnodes]

/-! ## Layouts at other places -/

/-- The layouts differ only in the places of tokens and nodes. -/
structure Layout.SameUpToPlaces (c' c : Layout) : Prop where
  tokens : Token.Same c'.tokens c.tokens
  kept : Token.Same c'.kept c.kept
  starts : Token.Same c'.starts c.starts
  after : c'.after = c.after
  nodes : Node.unplacedAll c'.nodes = Node.unplacedAll c.nodes

/-- The same tokens at other places are laid out in the same way. -/
theorem Layout.exists_same {nested : Bool} {c : Layout} (hc : c.Lawful nested) {ts : List Token}
    (hts : Token.Same ts c.tokens) :
    ∃ c' : Layout, c'.tokens = ts ∧ c'.Lawful nested ∧ c'.SameUpToPlaces c := by
  induction c generalizing nested ts with
  | ending blanks =>
    exact ⟨.ending ts, rfl, hts.allBlank hc, hts, hts, rfl, congrArg String.ofList hts.source, rfl⟩
  | sign blanks t rest ih =>
    obtain ⟨blanks', more, rfl, hblanks, hmore⟩ := hts.append_right
    obtain ⟨t', ts, rfl, hkind, htext, hrest⟩ := hmore.cons_right
    obtain ⟨rest', rfl, hlawful, hsame⟩ := ih hc.2.2 hrest
    refine ⟨.sign blanks' t' rest', rfl, ⟨hblanks.allBlank hc.1, by rw [hkind]; exact hc.2.1, hlawful⟩,
      hts, hsame.kept, hsame.starts, hsame.after, hsame.nodes⟩
  | leaf blanks us n rest ih =>
    obtain ⟨front, more, rfl, hfront, hmore⟩ := hts.append_right
    obtain ⟨blanks', us', rfl, hblanks, hus⟩ := hfront.append_right
    obtain ⟨rest', rfl, hlawful, hsame⟩ := ih hc.2.2 hmore
    obtain ⟨n', hleaf, hn⟩ := hc.2.1.exists_same hus hmore
    refine ⟨.leaf blanks' us' n' rest', rfl, ⟨hblanks.allBlank hc.1, ?_, hlawful⟩, hts,
      hfront.append hsame.kept, ?_, hsame.after, ?_⟩
    · rw [Item.sourceText, hblanks.source]
      exact hleaf
    · exact (hus.take 1).append hsame.starts
    · simp only [Layout.nodes, Node.unplacedAll, hn, hsame.nodes]
  | block blanks head o inner innerEnd rest ihInner ihRest =>
    obtain ⟨hblanksLawful, hopens, hinnerLawful, hend, hrestLawful⟩ := hc
    obtain ⟨front, more, rfl, hfront, hmore⟩ := hts.append_right
    obtain ⟨heads, inside, rfl, hheads, hinside⟩ := hfront.append_right
    obtain ⟨blanks', head', rfl, hblanks, hhead⟩ := hheads.append_right
    obtain ⟨innerEnd', outside, rfl, hkind, htext, houtside⟩ := hmore.cons_right
    obtain ⟨inner', rfl, hinner, hsame⟩ := ihInner hinnerLawful hinside
    obtain ⟨rest', rfl, hrest, hsame'⟩ := ihRest hrestLawful houtside
    obtain ⟨o', hopens', hnodes⟩ := hopens.exists_same hhead
    refine ⟨.block blanks' head' o' inner' innerEnd' rest', rfl,
      ⟨hblanks.allBlank hblanksLawful, ?_, hinner, hkind.trans hend, hrest⟩, hts, ?_, ?_,
      hsame'.after, ?_⟩
    · rw [Item.sourceText, hblanks.source]
      exact hopens'
    · have hends : Token.Same (innerEnd' :: rest'.kept) (innerEnd :: rest.kept) := by
        have hone : Token.Same [innerEnd'] [innerEnd] :=
          congrArg (· :: []) (Token.unplaced_eq_iff.2 ⟨hkind, htext⟩)
        exact hone.append hsame'.kept
      exact (hheads.append hsame.kept).append hends
    · exact ((hhead.take 1).append hsame.starts).append hsame'.starts
    · simp only [Layout.nodes, Node.unplacedAll, hsame'.nodes, hsame.after,
        hnodes _ _ _ hsame.nodes]

end GradientFallback
