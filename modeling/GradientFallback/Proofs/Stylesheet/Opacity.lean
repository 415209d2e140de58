import GradientFallback.Proofs.Stylesheet.Importance
import GradientFallback.Proofs.Stylesheet.Reparsing
import GradientFallback.Proofs.Token.Enclosing

/-! # What strings and comments hold is not looked into

The tree is decided by the kinds of the tokens, and where a text is looked at, by its characters in
front of a string or comment and behind it.  So a string or comment with another content gives the
same tree, with the new content in the one text that shows the old one.
-/
namespace GradientFallback

/-! ## Trees with a gap in one text -/

/-- A text with a gap. -/
structure TextFrame where
  front : List Char
  back : List Char

/-- The text with an enclosed content in its gap. -/
def TextFrame.fill (f : TextFrame) (e : Enclosure) (content : List Char) : String :=
  String.ofList (f.front ++ e.wrap content ++ f.back)

/-- The texts of a declaration in which strings and comments can stand. -/
inductive Declaration.Field where
  | property
  | between
  | value
  | after

/-- The declaration with another text in one field, and all else as it is. -/
def Declaration.withField (d : Declaration) (text : String) : Field → Declaration
  | .property => { d with property := text }
  | .between => { d with between := text }
  | .value => { d with value := text }
  | .after => { d with after := text }

/-- A node with a gap in one of its texts or in one text of a node inside it. -/
inductive Node.Frame where
  | selector (head : RuleHead) (text : TextFrame) (nodes : List Node) (after : String)
  | params (head : AtRuleHead) (text : TextFrame) (nodes : List Node) (after : String)
  | statement (head : AtRuleHead) (text : TextFrame) (semicolon : Bool)
  | declaration (d : Declaration) (field : Declaration.Field) (text : TextFrame)
  /-- A comment shows its content without the signs. -/
  | comment (c : Comment)
  | block (o : Opening) (front : List Node) (hole : Node.Frame) (back : List Node) (after : String)

/-- The node with an enclosed content in its gap. -/
def Node.Frame.fill (e : Enclosure) (content : List Char) : Node.Frame → Node
  | selector head text nodes after =>
    .rule { head with selector := text.fill e content } nodes after
  | params head text nodes after => .atRule { head with params := text.fill e content } nodes after
  | statement head text semicolon =>
    .statement { head with params := text.fill e content } semicolon
  | declaration d field text => .declaration (d.withField (text.fill e content) field)
  | comment c => .comment { c with content := String.ofList content }
  | block o front hole back after => o.node (front ++ hole.fill e content :: back) after

/-- A stylesheet with a gap in one text of one node. -/
structure Stylesheet.Frame where
  front : List Node
  hole : Node.Frame
  back : List Node
  after : String
  origin : Option String

/-- The stylesheet with an enclosed content in its gap. -/
def Stylesheet.Frame.fill (e : Enclosure) (content : List Char) (f : Stylesheet.Frame) : Stylesheet :=
  ⟨f.front ++ f.hole.fill e content :: f.back, f.after, f.origin⟩

/-! ## Texts around an enclosed content -/

namespace Enclosure

variable (e : Enclosure) (content front back : List Char)

theorem append_wrap_append : front ++ e.wrap content ++ back =
    front ++ e.sign :: (e.lining ++ content ++ e.lining ++ e.sign :: back) := by
  simp [wrap]

theorem append_wrap_append' : front ++ e.wrap content ++ back =
    front ++ e.sign :: (e.lining ++ content ++ e.lining) ++ e.sign :: back := by
  simp [wrap]

theorem takeWhile_wrap :
    (front ++ e.wrap content ++ back).takeWhile isBlank = front.takeWhile isBlank := by
  rw [append_wrap_append, takeWhile_append_cons e.isBlank_sign]

theorem trimStart_wrap :
    trimStart (front ++ e.wrap content ++ back) = trimStart front ++ e.wrap content ++ back := by
  rw [append_wrap_append, trimStart, dropWhile_append_cons e.isBlank_sign, append_wrap_append]
  rfl

theorem trimEnd_wrap :
    trimEnd (front ++ e.wrap content ++ back) = front ++ e.wrap content ++ trimEnd back := by
  rw [append_wrap_append', trimEnd, dropTrailing_append_cons e.isBlank_sign, append_wrap_append']
  rfl

theorem trailing_wrap :
    trailing isBlank (front ++ e.wrap content ++ back) = trailing isBlank back := by
  rw [append_wrap_append', trailing_append_cons e.isBlank_sign]

theorem splitMarker_wrap : Item.splitMarker (front ++ e.wrap content ++ back) =
    (front ++ e.wrap content ++ (Item.splitMarker back).1, (Item.splitMarker back).2) := by
  rw [append_wrap_append', Item.splitMarker_append_cons e.isBlank_sign e.isLetter_sign
    e.sign_ne_exclamation, append_wrap_append']

/-- Two hyphens at the start stand in front of the content. -/
theorem starts_wrap {cs : List Char} (h : front ++ e.wrap content ++ back = '-' :: '-' :: cs)
    (new : List Char) : ∃ ds, front ++ e.wrap new ++ back = '-' :: '-' :: ds := by
  rw [append_wrap_append] at h
  rcases front with _ | ⟨c, _ | ⟨d, front⟩⟩
  · exact absurd (List.cons.inj h).1 e.sign_ne_hyphen
  · exact absurd (List.cons.inj (List.cons.inj h).2).1 e.sign_ne_hyphen
  · obtain ⟨rfl, hrest⟩ := List.cons.inj h
    obtain ⟨rfl, -⟩ := List.cons.inj hrest
    exact ⟨front ++ e.wrap new ++ back, rfl⟩

theorem endsHead_kind (said : String) : Item.endsHead (e.kind said) = false := by cases e <;> rfl

theorem endsProperty_kind (said : String) : Item.endsProperty (e.kind said) = false := by
  cases e <;> rfl

theorem startsPlain_kind (a b : String) : (e.kind a).startsPlain = (e.kind b).startsPlain := by
  cases e <;> rfl

end Enclosure

/-! ## Constructs -/

section Constructs

variable {e : Enclosure} {inner content : List Char} {place : Location} {t u : Token}
  {front back : List Token}

/-- A string or comment in the parameters of an at-rule. -/
theorem AtRuleHead.exists_frame (e : Enclosure) (place : Location) (before name : String)
    (location : Location) (front back : List Token) :
    ∃ (head : AtRuleHead) (text : TextFrame), ∀ content u, u.Encloses e content place →
      AtRuleHead.ofRun before name location (front ++ u :: back) =
        { head with params := text.fill e content } := by
  refine ⟨⟨name, "", location, before, String.ofList ((Token.source front).takeWhile isBlank),
    String.ofList (trailing isBlank (Token.source back))⟩,
    ⟨trimStart (Token.source front), trimEnd (Token.source back)⟩, fun content u hu => ?_⟩
  simp only [AtRuleHead.ofRun, hu.source, trim, e.trimStart_wrap, e.trimEnd_wrap, e.takeWhile_wrap,
    e.trailing_wrap, TextFrame.fill]

/-- A string or comment in a selector. -/
theorem RuleHead.exists_frame (e : Enclosure) (place : Location) (before : String)
    (location : Location) (front back : List Token) :
    ∃ (head : RuleHead) (text : TextFrame), ∀ content u, u.Encloses e content place →
      RuleHead.ofRun before location (front ++ u :: back) =
        { head with selector := text.fill e content } := by
  refine ⟨⟨"", location, before, String.ofList (trailing isBlank (Token.source back))⟩,
    ⟨Token.source front, trimEnd (Token.source back)⟩, fun content u hu => ?_⟩
  simp only [RuleHead.ofRun, hu.source, e.trimEnd_wrap, e.trailing_wrap, TextFrame.fill]

namespace DeclarationParts

variable {p q : DeclarationParts} {a b : List Token}

/-- Between `front` and `back`, a token of any content makes the tokens of lawful parts, and one
frame gives the declarations that they make. -/
def Framed (p : DeclarationParts) (e : Enclosure) (place : Location) (front back : List Token) : Prop :=
  ∃ frame : String → List Token → Bool → Node.Frame, ∀ content u, u.Encloses e content place →
    ∃ q : DeclarationParts, q.Lawful ∧ q.tokens = front ++ u :: back ∧
      (q.value = [] → p.value = []) ∧ ∀ before after semicolon,
        .declaration (q.declaration before after semicolon) =
          (frame before after semicolon).fill e content

theorem Lawful.exchange (hp : p.Lawful) (h : Token.Interchangeable t u)
    (hts : p.tokens = front ++ t :: back) (hus : q.tokens = front ++ u :: back) :
    Token.Passes Item.endsHead 0 q.tokens ∧ Token.depthBehind 0 q.tokens = 0 := by
  have hpasses := hp.passes
  have hclosed := hp.closed
  rw [hts] at hpasses hclosed
  rw [hus, h.depthBehind]
  exact ⟨h.passes Enclosure.endsHead_kind hpasses, hclosed⟩

variable (hp : p.Lawful) (ht : t.Encloses e inner place)
include hp ht

/-- With another token in its place, the colon still stands between two gaps. -/
theorem Lawful.exists_gaps (hbetween : p.nameGap ++ p.colon :: p.gap = a ++ t :: b)
    (h : Token.Interchangeable t u) :
    ∃ nameGap gap, Token.AllTrivia nameGap ∧ Token.AllTrivia gap ∧
      nameGap ++ p.colon :: gap = a ++ u :: b := by
  rcases Token.append_eq_append_cons hbetween with ⟨more, hgap, rfl⟩ | ⟨more, rfl, hmore⟩
  · exact ⟨a ++ u :: more, p.gap, h.allTrivia (by rw [← hgap]; exact hp.nameGap), hp.gap, by simp⟩
  · have hcolon := Token.not_isEnclosed_of_kind hp.colon rfl
    obtain ⟨more, rfl, hgap⟩ := ht.in_right hcolon hmore
    exact ⟨p.nameGap, more ++ u :: b, hp.nameGap, h.allTrivia (by rw [← hgap]; exact hp.gap),
      by simp⟩

variable (hts : p.tokens = front ++ t :: back)
include hts

/-- A string in the name. -/
theorem Lawful.framed_name (hname : p.name = a ++ t :: b)
    (hus : ∀ u, ({ p with name := a ++ u :: b } : DeclarationParts).tokens = front ++ u :: back) :
    p.Framed e place front back := by
  refine ⟨fun before after semicolon => .declaration (p.declaration before after semicolon)
    .property ⟨Token.source a, Token.source b⟩, fun content u hu => ?_⟩
  have h := ht.interchangeable hu
  have hall := hp.exchange h hts (hus u)
  refine ⟨_, ?_, hus u, id, fun before after semicolon => ?_⟩
  · exact { hp with
      name_ne_nil := by simp
      starts := by
        rw [h.headKind Enclosure.startsPlain_kind, ← hname]
        exact hp.starts
      name_last := h.getLast? (by rw [← hname]; exact hp.name_last)
      name_passes := h.passes Enclosure.endsProperty_kind (by rw [← hname]; exact hp.name_passes)
      name_closed := by
        rw [h.depthBehind, ← hname]
        exact hp.name_closed
      passes := hall.1
      closed := hall.2
      has_value := by
        refine hp.has_value.imp_right fun ⟨cs, hcs⟩ => ?_
        rw [hname, ht.source] at hcs
        rw [hu.source]
        exact e.starts_wrap _ _ _ hcs content }
  · simp only [declaration, split, Item.sourceText, hu.source, h.start, hname, Node.Frame.fill,
      Declaration.withField, TextFrame.fill]

/-- A comment beside the colon, on either side of it. -/
theorem Lawful.framed_between (hbetween : p.nameGap ++ p.colon :: p.gap = a ++ t :: b)
    (hus : ∀ u, p.name ++ (a ++ u :: b) ++ p.value = front ++ u :: back) :
    p.Framed e place front back := by
  refine ⟨fun before after semicolon => .declaration (p.declaration before after semicolon)
    .between ⟨Token.source a, Token.source b⟩, fun content u hu => ?_⟩
  have h := ht.interchangeable hu
  obtain ⟨nameGap, gap, hnameGap, hgap, hgaps⟩ := hp.exists_gaps ht hbetween h
  have htokens : ({ p with nameGap := nameGap, gap := gap } : DeclarationParts).tokens =
      front ++ u :: back := by
    rw [← hus, ← hgaps]
    simp [tokens]
  have htext : Token.source nameGap ++ p.colon.text ++ Token.source gap =
      Token.source a ++ e.wrap content ++ Token.source b := by
    rw [← hu.source, ← hgaps]
    simp
  have hall := hp.exchange h hts htokens
  refine ⟨_, ?_, htokens, id, fun before after semicolon => ?_⟩
  · exact { hp with
      nameGap := hnameGap
      gap := hgap
      passes := hall.1
      closed := hall.2 }
  · simp only [declaration, split, htext, Node.Frame.fill, Declaration.withField, TextFrame.fill]

/-- A string or comment in the value; whether the value has a mark is seen behind it. -/
theorem Lawful.framed_value (hvalue : p.value = a ++ t :: b)
    (hus : ∀ u, ({ p with value := a ++ u :: b } : DeclarationParts).tokens = front ++ u :: back) :
    p.Framed e place front back := by
  refine ⟨fun before after semicolon => .declaration (p.declaration before after semicolon)
    .value ⟨Token.source a, (Item.splitMarker (Token.source b)).1⟩, fun content u hu => ?_⟩
  have h := ht.interchangeable hu
  have hall := hp.exchange h hts (hus u)
  refine ⟨_, ?_, hus u, by simp, fun before after semicolon => ?_⟩
  · exact { hp with
      value_first := h.head? (by rw [← hvalue]; exact hp.value_first)
      value_last := h.getLast? (by rw [← hvalue]; exact hp.value_last)
      passes := hall.1
      closed := hall.2
      has_value := by
        refine .inl ?_
        rw [split, hu.source, e.splitMarker_wrap]
        simp [Enclosure.wrap] }
  · simp only [declaration, split, hvalue, ht.source, hu.source, e.splitMarker_wrap,
      Node.Frame.fill, Declaration.withField, TextFrame.fill]

/-- A string or comment in a declaration stands in its name, beside its colon or in its value. -/
theorem Lawful.framed : p.Framed e place front back := by
  have htokens := hts
  rcases Token.append_eq_append_cons hts with ⟨more, hfront, rfl⟩ | ⟨more, rfl, hvalue⟩
  · rw [List.append_assoc] at hfront
    rcases Token.append_eq_append_cons hfront with ⟨more, hname, rfl⟩ | ⟨more, rfl, hbetween⟩
    · exact hp.framed_name ht htokens hname fun u => by simp [tokens]
    · exact hp.framed_between ht htokens hbetween fun u => by simp
  · exact hp.framed_value ht htokens hvalue fun u => by simp [tokens]

end DeclarationParts

/-- A comment that is a node says no more than its content. -/
theorem Leaf.framed_comment {nested : Bool} {before said : String} (kind : t.kind = .comment said)
    (ht : t.Encloses e inner place) (rest : List Token) :
    ∃ frame : Node.Frame, ∀ content u, u.Encloses e content place →
      Leaf nested before [u] rest (frame.fill e content) := by
  obtain rfl : e = .commentSigns := by
    obtain ⟨said', hkind, -⟩ := ht.kind
    rw [kind] at hkind
    cases e with
    | commentSigns => rfl
    | doubleQuotes => exact absurd hkind nofun
    | singleQuotes => exact absurd hkind nofun
  refine ⟨.comment ⟨said, place, before⟩, fun content u hu => ?_⟩
  obtain ⟨said', hkind, hsaid⟩ := hu.kind
  rw [hsaid rfl] at hkind
  have hleaf : Leaf nested before [u] rest _ := .comment hkind
  rw [hu.location] at hleaf
  exact hleaf

/-- A string or comment in a declaration with a semicolon, or a comment in front of the semicolon. -/
theorem Leaf.framed_declaration {nested : Bool} {before : String} {p : DeclarationParts}
    {after : List Token} {semicolon : Token} (inside : nested = true) (lawful : p.Lawful)
    (after_trivia : Token.AllTrivia after) (after_nil : p.value = [] → after = [])
    (ends : semicolon.kind = .semicolon) (hts : p.tokens ++ after = front ++ t :: back)
    (ht : t.Encloses e inner place) (rest : List Token) :
    ∃ frame : Node.Frame, ∀ content u, u.Encloses e content place →
      Leaf nested before (front ++ u :: (back ++ [semicolon])) rest (frame.fill e content) := by
  rcases Token.append_eq_append_cons hts with ⟨more, hp, rfl⟩ | ⟨more, rfl, rfl⟩
  · obtain ⟨frame, hframe⟩ := lawful.framed ht hp
    refine ⟨frame before after true, fun content u hu => ?_⟩
    obtain ⟨q, hq, htokens, hnil, hdeclaration⟩ := hframe content u hu
    have hleaf : Leaf nested before (q.tokens ++ after ++ [semicolon]) rest _ :=
      .declaration inside hq after_trivia (fun h => after_nil (hnil h)) ends
    rw [htokens, hdeclaration] at hleaf
    simpa only [List.append_assoc, List.cons_append] using hleaf
  · refine ⟨.declaration (p.declaration before [] true) .after
      ⟨Token.source more, Token.source back⟩, fun content u hu => ?_⟩
    have h := ht.interchangeable hu
    have hleaf : Leaf nested before (p.tokens ++ (more ++ u :: back) ++ [semicolon]) rest _ :=
      .declaration inside lawful (h.allTrivia after_trivia)
        (fun h => absurd (after_nil h) (by simp)) ends
    have hfill : .declaration (p.declaration before (more ++ u :: back) true) =
        Node.Frame.fill e content (.declaration (p.declaration before [] true) .after
          ⟨Token.source more, Token.source back⟩) := by
      simp only [DeclarationParts.declaration, Item.sourceText, hu.source]
      rfl
    rw [hfill] at hleaf
    simpa only [List.append_assoc, List.cons_append] using hleaf

/-- A string or comment in a node without a block. -/
theorem Leaf.framed {nested : Bool} {before : String} {ts rest : List Token} {n : Node}
    (h : Leaf nested before ts rest n) (hts : ts = front ++ t :: back)
    (ht : t.Encloses e inner place) :
    ∃ frame : Node.Frame, ∀ content u, u.Encloses e content place →
      Leaf nested before (front ++ u :: back) rest (frame.fill e content) := by
  cases h with
  | @comment w said _ kind =>
    obtain ⟨rfl, rfl, rfl⟩ : front = [] ∧ w = t ∧ back = [] := by
      rcases List.append_eq_singleton_iff.1 hts.symm with ⟨rfl, hw⟩ | ⟨-, hnil⟩
      · exact ⟨rfl, (List.cons.inj hw).1.symm, (List.cons.inj hw).2⟩
      · exact absurd hnil (List.cons_ne_nil t back)
    exact Leaf.framed_comment kind ht rest
  | @statement w semicolon name run _ kind passes closed ends =>
    obtain ⟨more, hfront, rfl⟩ := ht.in_left (Token.not_isEnclosed_of_kind ends rfl) hts
    obtain ⟨a, rfl, rfl⟩ := ht.in_right (Token.not_isEnclosed_of_kind kind rfl) hfront
    obtain ⟨head, text, hhead⟩ := AtRuleHead.exists_frame e place before name w.location a more
    refine ⟨.statement head text true, fun content u hu => ?_⟩
    have h := ht.interchangeable hu
    have hleaf : Leaf nested before (w :: (a ++ u :: more) ++ [semicolon]) rest _ :=
      .statement kind (h.passes Enclosure.endsHead_kind passes) (by rw [h.depthBehind, closed]) ends
    have hlist : w :: (a ++ u :: more) ++ [semicolon] = [w] ++ a ++ u :: (more ++ [semicolon]) := by
      simp
    rw [hhead content u hu, hlist] at hleaf
    exact hleaf
  | @lastStatement w name run kind passes closed =>
    obtain ⟨a, rfl, rfl⟩ := ht.in_right (Token.not_isEnclosed_of_kind kind rfl) hts
    obtain ⟨head, text, hhead⟩ := AtRuleHead.exists_frame e place before name w.location a back
    refine ⟨.statement head text false, fun content u hu => ?_⟩
    have h := ht.interchangeable hu
    have hleaf : Leaf nested before (w :: (a ++ u :: back)) [] _ :=
      .lastStatement kind (h.passes Enclosure.endsHead_kind passes) fun hnested => by
        rw [h.depthBehind, closed hnested]
    rw [hhead content u hu] at hleaf
    exact hleaf
  | @declaration p after _ semicolon inside lawful after_trivia after_nil ends =>
    obtain ⟨more, hfront, rfl⟩ := ht.in_left (Token.not_isEnclosed_of_kind ends rfl) hts
    exact Leaf.framed_declaration inside lawful after_trivia after_nil ends hfront ht rest
  | @lastDeclaration p _ inside lawful rest_trivia rest_nil =>
    obtain ⟨frame, hframe⟩ := lawful.framed ht hts
    refine ⟨frame before [] false, fun content u hu => ?_⟩
    obtain ⟨q, hq, htokens, hnil, hdeclaration⟩ := hframe content u hu
    rw [← htokens, ← hdeclaration]
    exact .lastDeclaration inside hq rest_trivia fun h => rest_nil (hnil h)

/-- A string or comment in front of a block. -/
theorem Opens.framed {before : String} {head : List Token} {o : Opening} (h : Opens before head o)
    (hts : head = front ++ t :: back) (ht : t.Encloses e inner place) :
    ∃ frame : List Node → String → Node.Frame, ∀ content u, u.Encloses e content place →
      ∃ o', Opens before (front ++ u :: back) o' ∧ ∀ nodes after,
        o'.node nodes after = (frame nodes after).fill e content := by
  cases h with
  | @rule run brace ends starts passes closed =>
    obtain ⟨more, rfl, rfl⟩ := ht.in_left (Token.not_isEnclosed_of_kind ends rfl) hts
    obtain ⟨head, text, hhead⟩ := RuleHead.exists_frame e place before
      (Token.start .origin (front ++ t :: (more ++ [brace]))) front more
    refine ⟨.selector head text, fun content u hu => ?_⟩
    have h := ht.interchangeable hu
    have hlist (v : Token) : front ++ v :: more ++ [brace] = front ++ v :: (more ++ [brace]) := by
      simp
    have hopens : Opens before (front ++ u :: more ++ [brace]) _ :=
      .rule ends (by rw [hlist, h.headKind Enclosure.startsPlain_kind, ← hlist]; exact starts)
        (h.passes Enclosure.endsHead_kind passes) (by rw [h.depthBehind, closed])
    rw [hlist, h.start, hhead content u hu] at hopens
    exact ⟨_, hopens, fun nodes after => rfl⟩
  | @atRule w brace name run kind passes closed ends =>
    obtain ⟨more, hfront, rfl⟩ := ht.in_left (Token.not_isEnclosed_of_kind ends rfl) hts
    obtain ⟨a, rfl, rfl⟩ := ht.in_right (Token.not_isEnclosed_of_kind kind rfl) hfront
    obtain ⟨head, text, hhead⟩ := AtRuleHead.exists_frame e place before name w.location a more
    refine ⟨.params head text, fun content u hu => ?_⟩
    have h := ht.interchangeable hu
    have hopens : Opens before (w :: (a ++ u :: more) ++ [brace]) _ :=
      .atRule kind (h.passes Enclosure.endsHead_kind passes) (by rw [h.depthBehind, closed]) ends
    have hlist : w :: (a ++ u :: more) ++ [brace] = [w] ++ a ++ u :: (more ++ [brace]) := by simp
    rw [hhead content u hu, hlist] at hopens
    exact ⟨_, hopens, fun nodes after => rfl⟩

/-- What stands behind a node does not count, as long as the same kinds of tokens are there. -/
theorem Leaf.exchange_rest {nested : Bool} {before : String} {ts : List Token} {n : Node}
    (h : Leaf nested before ts (front ++ t :: back) n) (hu : Token.Interchangeable t u) :
    Leaf nested before ts (front ++ u :: back) n := by
  generalize hrest : front ++ t :: back = rest at h
  cases h with
  | comment kind => exact .comment kind
  | statement kind passes closed ends => exact .statement kind passes closed ends
  | lastStatement kind passes closed => exact absurd hrest (by simp)
  | declaration inside lawful after_trivia after_nil ends =>
    exact .declaration inside lawful after_trivia after_nil ends
  | lastDeclaration inside lawful rest_trivia rest_nil =>
    subst hrest
    exact .lastDeclaration inside lawful (hu.allTrivia rest_trivia)
      fun h => absurd (rest_nil h) (by simp)

/-! ## Whole stylesheets -/

theorem TokenKind.not_isEnclosed_of_isSign {k : TokenKind} (h : k.isSign = true) :
    k.isEnclosed = false := by
  cases k <;> first | rfl | exact absurd h nofun

/-- The nodes of a layout with a string or comment among its tokens fill one frame, whatever content
stands there. -/
theorem Layout.framed {nested : Bool} {c : Layout} (hc : c.Lawful nested)
    (hts : c.tokens = front ++ t :: back) (ht : t.Encloses e inner place) :
    ∃ (before : List Node) (frame : Node.Frame) (behind : List Node),
      ∀ content u, u.Encloses e content place →
        ∃ c' : Layout, c'.Lawful nested ∧ c'.tokens = front ++ u :: back ∧ c'.after = c.after ∧
          c'.nodes = before ++ frame.fill e content :: behind := by
  induction c generalizing nested front back with
  | ending blanks =>
    have ht' := hc.not_isEnclosed t (by rw [show blanks = _ from hts]; simp)
    rw [ht.isEnclosed] at ht'
    exact absurd ht' nofun
  | sign blanks w rest ih =>
    obtain ⟨hblanks, hsign, hrest⟩ := hc
    have hw := Token.not_isEnclosed_of_kind rfl (TokenKind.not_isEnclosed_of_isSign hsign)
    obtain ⟨more, rfl, hmore⟩ := ht.in_right hblanks.not_isEnclosed hts
    obtain ⟨more, rfl, hrestTokens⟩ := ht.in_right hw hmore
    obtain ⟨before, frame, behind, hframe⟩ := ih hrest hrestTokens
    refine ⟨before, frame, behind, fun content u hu => ?_⟩
    obtain ⟨c', hlawful, htokens, hafter, hnodes⟩ := hframe content u hu
    exact ⟨.sign blanks w c', ⟨hblanks, hsign, hlawful⟩, by simp [tokens, htokens], hafter, hnodes⟩
  | leaf blanks ts n rest ih =>
    obtain ⟨hblanks, hleaf, hrest⟩ := hc
    rcases Token.append_eq_append_cons hts with ⟨more, hfront, rfl⟩ | ⟨more, rfl, hrestTokens⟩
    · obtain ⟨a, rfl, rfl⟩ := ht.in_right hblanks.not_isEnclosed hfront
      obtain ⟨frame, hframe⟩ := hleaf.framed rfl ht
      exact ⟨[], frame, rest.nodes, fun content u hu =>
        ⟨.leaf blanks (a ++ u :: more) _ rest, ⟨hblanks, hframe content u hu, hrest⟩,
          by simp [tokens], rfl, rfl⟩⟩
    · obtain ⟨before, frame, behind, hframe⟩ := ih hrest hrestTokens
      refine ⟨n :: before, frame, behind, fun content u hu => ?_⟩
      obtain ⟨c', hlawful, htokens, hafter, hnodes⟩ := hframe content u hu
      rw [hrestTokens] at hleaf
      have hleaf' := hleaf.exchange_rest (ht.interchangeable hu)
      rw [← htokens] at hleaf'
      exact ⟨.leaf blanks ts n c', ⟨hblanks, hleaf', hlawful⟩, by simp [tokens, htokens], hafter,
        by simp [nodes, hnodes]⟩
  | block blanks head o inner innerEnd rest ihInner ihRest =>
    obtain ⟨hblanks, hopens, hinner, hend, hrest⟩ := hc
    have hw := Token.not_isEnclosed_of_kind hend rfl
    rcases Token.append_eq_append_cons hts with ⟨more, hfront, rfl⟩ | ⟨more, rfl, hmore⟩
    · rcases Token.append_eq_append_cons hfront with ⟨more, hhead, rfl⟩ | ⟨more, rfl, hinnerTokens⟩
      · obtain ⟨a, rfl, rfl⟩ := ht.in_right hblanks.not_isEnclosed hhead
        obtain ⟨frame, hframe⟩ := hopens.framed rfl ht
        refine ⟨[], frame inner.nodes inner.after, rest.nodes, fun content u hu => ?_⟩
        obtain ⟨o', hopens', hnode⟩ := hframe content u hu
        exact ⟨.block blanks (a ++ u :: more) o' inner innerEnd rest,
          ⟨hblanks, hopens', hinner, hend, hrest⟩, by simp [tokens], rfl,
          congrArg (· :: rest.nodes) (hnode _ _)⟩
      · obtain ⟨before, frame, behind, hframe⟩ := ihInner hinner hinnerTokens
        refine ⟨[], .block o before frame behind inner.after, rest.nodes, fun content u hu => ?_⟩
        obtain ⟨c', hlawful, htokens, hafter, hnodes⟩ := hframe content u hu
        exact ⟨.block blanks head o c' innerEnd rest, ⟨hblanks, hopens, hlawful, hend, hrest⟩,
          by simp [tokens, htokens], rfl, by simp [nodes, hnodes, hafter, Node.Frame.fill]⟩
    · obtain ⟨more, rfl, hrestTokens⟩ := ht.in_right hw hmore
      obtain ⟨before, frame, behind, hframe⟩ := ihRest hrest hrestTokens
      refine ⟨o.node inner.nodes inner.after :: before, frame, behind, fun content u hu => ?_⟩
      obtain ⟨c', hlawful, htokens, hafter, hnodes⟩ := hframe content u hu
      exact ⟨.block blanks head o inner innerEnd c', ⟨hblanks, hopens, hinner, hend, hlawful⟩,
        by simp [tokens, htokens], hafter, by simp [nodes, hnodes]⟩

end Constructs

namespace Stylesheet

/-- In a text without carriage returns that is read strictly, the content of every string and of
every comment can be replaced: the new text is read as the same tree, but for the places, with the
new content in the text that showed the old one. -/
theorem parse_enclosed {config : ParseConfig} {text : String} {s : Stylesheet}
    (hstrict : config.lenient = false) (hreturn : '\r' ∉ text.toList)
    (hs : parse config text = .ok s) {front back : List Token} {t : Token}
    (hlex : Token.lex config.start text.toList = front ++ t :: back) {e : Enclosure}
    {inner : List Char} (hkind : ∃ said, t.kind = e.kind said) (htext : t.text = e.wrap inner) :
    text.toList = Token.source front ++ e.wrap inner ++ Token.source back ∧
      ∃ frame : Stylesheet.Frame, s = frame.fill e inner ∧
        ∀ new, e.Allows new → '\r' ∉ new → ∃ s',
          parse config (String.ofList (Token.source front ++ e.wrap new ++ Token.source back)) =
            .ok s' ∧ s'.unplaced = (frame.fill e new).unplaced := by
  have hspelled : Token.Spelled (front ++ t :: back) [] := by
    rw [← hlex]
    exact Token.spelled_lex config.start text.toList
  have ht : t.Encloses e inner t.location :=
    (hspelled.written t (by simp)).encloses hkind htext
  have hsource : text.toList = Token.source front ++ e.wrap inner ++ Token.source back := by
    rw [← ht.source, ← hlex, Token.source_lex]
  obtain ⟨c, hc, htokens, rfl⟩ := (Layout.ofTokens_eq_ok_iff hstrict _).1 hs
  rw [unifyLineEnds_of_not_mem hreturn, hlex] at htokens
  obtain ⟨before, hole, behind, hframe⟩ := Layout.framed hc htokens ht
  have hsheet {c' : Layout} {content : List Char} (hafter : c'.after = c.after)
      (hnodes : c'.nodes = before ++ hole.fill e content :: behind) :
      c'.sheet config.origin =
        Frame.fill e content ⟨before, hole, behind, c.after, config.origin⟩ := by
    rw [Layout.sheet, hafter, hnodes]
    rfl
  refine ⟨hsource, ⟨before, hole, behind, c.after, config.origin⟩, ?_, fun new hnew hfree => ?_⟩
  · -- The old content fills the frame too, since the same tokens make only one stylesheet.
    obtain ⟨c', hlawful, htokens', hafter, hnodes⟩ := hframe inner t ht
    have hread := Layout.ofTokens_of_lawful hstrict .origin hlawful
    rw [htokens', ← htokens, Layout.ofTokens_of_lawful hstrict .origin hc, Except.ok.injEq] at hread
    rw [hread, hsheet hafter hnodes]
  · have hu := Token.encloses_withContent t e new
    obtain ⟨c', hlawful, htokens', hafter, hnodes⟩ := hframe new _ hu
    have hspelled' : Token.Spelled c'.tokens [] := by
      rw [htokens']
      exact hspelled.withContent htext hnew
    have hsource' : Token.source c'.tokens =
        Token.source front ++ e.wrap new ++ Token.source back := by
      rw [htokens', hu.source]
    have hreturn' : '\r' ∉ Token.source front ++ e.wrap new ++ Token.source back := by
      rw [hsource] at hreturn
      simp only [List.mem_append, not_or] at hreturn ⊢
      exact ⟨⟨hreturn.1.1, e.not_mem_wrap (by cases e <;> decide) hfree⟩, hreturn.2⟩
    rw [← hsource'] at hreturn' ⊢
    obtain ⟨c'', -, hsame, -, hread⟩ := hlawful.exists_parse hspelled' (String.toList_ofList)
      (by rw [String.toList_ofList]; exact hreturn') hstrict
    exact ⟨_, hread, by rw [hsame.unplaced_sheet, hsheet hafter hnodes]⟩

/-- A string can hold all the signs that end its declaration. -/
theorem parse_enclosed_signs :
    ∃ frame : Stylesheet.Frame,
      parse .strict "a\x7bb:\"x\"!important\x7d" = .ok (frame.fill .doubleQuotes ['x']) ∧
        ∃ s', parse .strict "a\x7bb:\";\x7d!\"!important\x7d" = .ok s' ∧
          s'.unplaced = (frame.fill .doubleQuotes [';', '\x7d', '!']).unplaced := by
  let s : Stylesheet := ⟨[.rule ⟨"a", ⟨1, 1, 0⟩, "", ""⟩
    [.declaration ⟨"b", "\"x\"", true, ⟨1, 3, 2⟩, "", ":", some "!important", "", false⟩] ""],
    "", none⟩
  let tokens := Token.lex .origin "a\x7bb:\"x\"!important\x7d".toList
  let t : Token := ⟨.quotedString "x", ⟨1, 5, 4⟩, ['"', 'x', '"']⟩
  have hs : parse .strict "a\x7bb:\"x\"!important\x7d" = .ok s := rfl
  have hlex : tokens = tokens.take 4 ++ t :: tokens.drop 5 := rfl
  have htext : t.text = Enclosure.doubleQuotes.wrap ['x'] := rfl
  obtain ⟨-, frame, hframe, hnew⟩ :=
    parse_enclosed rfl (by decide) hs hlex ⟨"x", rfl⟩ htext
  obtain ⟨s', hs', hsame⟩ := hnew [';', '\x7d', '!']
    (by simp [Enclosure.Allows, Enclosure.sign]) (by simp)
  refine ⟨frame, ?_, s', ?_, hsame⟩
  · rw [← hframe]
    exact hs
  · rw [← hs']
    rfl

end Stylesheet
end GradientFallback
