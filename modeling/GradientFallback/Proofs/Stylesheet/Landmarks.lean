import GradientFallback.Proofs.Stylesheet.Lenient
import GradientFallback.Proofs.Stylesheet.Visiting
import GradientFallback.Proofs.Token.Consuming

/-! # Where nodes stand

A node keeps the place where it starts.  A reader goes through the tokens once and takes each node
from the tokens in front of it, so the nodes start one behind the other, an outer one before the
inner ones, and each place is the one where the text of the node can be found.  This does not depend
on what is passed between them.
-/
namespace GradientFallback

/-! ## Nodes in the order in which they start -/

mutual

/-- The node and those inside it, an outer one before the inner ones. -/
def Node.preorder : Node → List Node
  | .rule head nodes after => .rule head nodes after :: Node.preorderAll nodes
  | .atRule head nodes after => .atRule head nodes after :: Node.preorderAll nodes
  | n => [n]

def Node.preorderAll : List Node → List Node
  | [] => []
  | n :: ns => n.preorder ++ Node.preorderAll ns

end

/-- All nodes of a stylesheet. -/
def Stylesheet.preorder (s : Stylesheet) : List Node := Node.preorderAll s.nodes

/-- What a node starts with.  The name of an at-rule can be written with escapes, so only its sign
is known. -/
def Node.lead : Node → List Char
  | .rule head _ _ => head.selector.toList
  | .atRule _ _ _ => ['@']
  | .statement _ _ => ['@']
  | .declaration d => d.property.toList
  | .comment c => '/' :: '*' :: c.content.toList

/-- A place, and a text that starts there. -/
structure Landmark where
  place : Location
  lead : List Char
  deriving DecidableEq

namespace Node

def landmark (n : Node) : Landmark := ⟨n.location, n.lead⟩

theorem preorderAll_eq_flatMap (nodes : List Node) :
    preorderAll nodes = nodes.flatMap preorder := by
  induction nodes with
  | nil => rfl
  | cons n nodes ih => rw [preorderAll, ih, List.flatMap_cons]

theorem rulesOfAll_sublist_of {nodes : List Node}
    (h : ∀ n ∈ nodes, (n.rules.map ofRule).Sublist n.preorder) :
    ((rulesOfAll nodes).map ofRule).Sublist (preorderAll nodes) := by
  induction nodes with
  | nil => exact .slnil
  | cons n nodes ih =>
    rw [rulesOfAll, preorderAll, List.map_append]
    exact (h n List.mem_cons_self).append (ih fun m hm => h m (List.mem_cons_of_mem n hm))

/-- The rules are some of the nodes, in the same order. -/
theorem rules_sublist (n : Node) : (n.rules.map ofRule).Sublist n.preorder := by
  induction n using induct with
  | rule head nodes after ih => exact (rulesOfAll_sublist_of ih).cons_cons _
  | atRule head nodes after ih => exact (rulesOfAll_sublist_of ih).cons _
  | statement => exact List.nil_sublist _
  | declaration => exact List.nil_sublist _
  | comment => exact List.nil_sublist _

/-- The landmarks of the nodes of a block. -/
def landmarksOf (nodes : List Node) : List Landmark := (preorderAll nodes).map landmark

@[simp] theorem landmarksOf_nil : landmarksOf [] = [] := rfl

theorem landmarksOf_append (ns ms : List Node) :
    landmarksOf (ns ++ ms) = landmarksOf ns ++ landmarksOf ms := by
  simp only [landmarksOf, preorderAll_eq_flatMap, List.flatMap_append, List.map_append]

end Node

/-- A block is found by what it starts with. -/
def Opening.landmark (o : Opening) : Landmark := (o.node [] "").landmark

theorem Node.landmarksOf_block (o : Opening) (nodes : List Node) (after : String) :
    landmarksOf [o.node nodes after] = o.landmark :: landmarksOf nodes := by
  cases o <;> simp [landmarksOf, preorderAll, preorder, Opening.node, Opening.landmark, landmark,
    location, lead]

/-! ## Landmarks of items -/

namespace Item

def landmarks : Item → List Landmark
  | leaf n => Node.landmarksOf [n]
  | opening o => [o.landmark]
  | _ => []

/-- The landmarks of the nodes that items make; nothing is read behind the end. -/
def landmarksOf : List Item → List Landmark
  | [] => []
  | .ending _ :: _ => []
  | item :: items => item.landmarks ++ landmarksOf items

end Item

namespace Stylesheet

/-- The landmarks of the nodes in blocks that are open, the outer ones first. -/
def openLandmarks : List OpenBlock → List Node → List Landmark
  | [], nodes => Node.landmarksOf nodes
  | b :: outer, nodes =>
    openLandmarks outer b.nodesBefore.toList ++ b.opening.landmark :: Node.landmarksOf nodes

theorem openLandmarks_append (outer : List OpenBlock) (nodes more : List Node) :
    openLandmarks outer (nodes ++ more) = openLandmarks outer nodes ++ Node.landmarksOf more := by
  cases outer <;> simp [openLandmarks, Node.landmarksOf_append]

theorem openLandmarks_close (b : OpenBlock) (outer : List OpenBlock) (nodes : List Node)
    (after : String) :
    openLandmarks outer (b.nodesBefore.push (b.opening.node nodes after)).toList =
      openLandmarks (b :: outer) nodes := by
  rw [Array.toList_push, openLandmarks_append, Node.landmarksOf_block, openLandmarks]

theorem landmarks_closeAll (origin : Option String) (after : String) (outer : List OpenBlock)
    (nodes : Array Node) :
    Node.landmarksOf (closeAll origin after outer nodes).nodes =
      openLandmarks outer nodes.toList := by
  induction outer generalizing after nodes with
  | nil => rfl
  | cons b outer ih => rw [closeAll, ih, openLandmarks_close]

/-- The nodes that items make are found where the items are. -/
theorem landmarks_assemble (origin : Option String) (outer : List OpenBlock) (nodes : Array Node)
    (items : List Item) :
    Node.landmarksOf (assemble origin outer nodes items).nodes =
      openLandmarks outer nodes.toList ++ Item.landmarksOf items := by
  fun_induction assemble origin outer nodes items with
  | case1 outer nodes => simp [landmarks_closeAll, Item.landmarksOf]
  | case2 outer nodes after items => simp [landmarks_closeAll, Item.landmarksOf]
  | case3 outer nodes n items ih =>
    rw [ih, Array.toList_push, openLandmarks_append, List.append_assoc]
    rfl
  | case4 outer nodes o items ih =>
    rw [ih]
    simp [openLandmarks, Item.landmarksOf, Item.landmarks]
  | case5 nodes b outer after items ih =>
    rw [ih, openLandmarks_close]
    rfl
  | case6 nodes after items ih => exact ih
  | case7 outer nodes items ih => exact ih

end Stylesheet

/-! ## Landmarks in a text -/

/-- The landmarks are found in the text, which starts at the given place, one behind the other. -/
inductive Landmark.Found : Location → List Char → List Landmark → Prop
  | done {start : Location} {cs : List Char} : Found start cs []
  | pass {start : Location} {c : Char} {cs : List Char} {ms : List Landmark}
      (others : Found (start.next c) cs ms) : Found start (c :: cs) ms
  | here {start : Location} {c : Char} {cs lead : List Char} {ms : List Landmark}
      (stands : lead <+: c :: cs) (others : Found (start.next c) cs ms) :
      Found start (c :: cs) (⟨start, lead⟩ :: ms)

namespace Landmark.Found

variable {start : Location} {cs : List Char} {ms : List Landmark}

theorem pass_all (front : List Char) (h : Found (start.advance front) cs ms) :
    Found start (front ++ cs) ms := by
  induction front generalizing start with
  | nil => exact h
  | cons c front ih =>
    apply Found.pass
    exact ih h

/-- A landmark at the start of a piece that is not empty, in front of others behind the piece. -/
theorem here_all {front lead : List Char} (hfront : front ≠ []) (hlead : lead <+: front ++ cs)
    (h : Found (start.advance front) cs ms) : Found start (front ++ cs) (⟨start, lead⟩ :: ms) := by
  obtain ⟨c, front, rfl⟩ := List.exists_cons_of_ne_nil hfront
  apply Found.here hlead
  exact h.pass_all front

/-- What is found in a text stands behind its start. -/
theorem le_offset (h : Found start cs ms) : ∀ m ∈ ms, start.offset ≤ m.place.offset := by
  induction h with
  | done => exact List.forall_mem_nil _
  | @pass start c cs ms others ih =>
    intro m hm
    have hm := ih m hm
    rw [Location.next_offset] at hm
    omega
  | @here start c cs lead ms stands others ih =>
    refine List.forall_mem_cons.2 ⟨Nat.le_refl _, fun m hm => ?_⟩
    have hm := ih m hm
    rw [Location.next_offset] at hm
    omega

theorem pairwise (h : Found start cs ms) :
    (ms.map fun m => m.place.offset).Pairwise (· < ·) := by
  induction h with
  | done => exact .nil
  | pass others ih => exact ih
  | @here start c cs lead ms stands others ih =>
    rw [List.map_cons, List.pairwise_cons]
    refine ⟨fun offset hoffset => ?_, ih⟩
    obtain ⟨m, hm, rfl⟩ := List.mem_map.1 hoffset
    have hle := others.le_offset m hm
    rw [Location.next_offset] at hle
    exact hle

/-- A landmark stands where the characters before it end. -/
theorem stands (h : Found start cs ms) : ∀ m ∈ ms, ∃ front back, cs = front ++ back ∧
    m.place = start.advance front ∧ m.lead <+: back := by
  induction h with
  | done => exact List.forall_mem_nil _
  | @pass start c cs ms others ih =>
    intro m hm
    obtain ⟨front, back, rfl, hplace, hlead⟩ := ih m hm
    exact ⟨c :: front, back, rfl, hplace, hlead⟩
  | @here start c cs lead ms stands others ih =>
    refine List.forall_mem_cons.2 ⟨⟨[], c :: cs, rfl, rfl, stands⟩, fun m hm => ?_⟩
    obtain ⟨front, back, rfl, hplace, hlead⟩ := ih m hm
    exact ⟨c :: front, back, rfl, hplace, hlead⟩

end Landmark.Found

/-! ## Landmarks of tokens -/

namespace Token

/-- The tokens of a text that starts at the given place. -/
structure Tiled (start : Location) (ts : List Token) : Prop where
  settled : settle start ts = ts
  spelled : Spelled ts []

theorem tiled_lex (start : Location) (cs : List Char) : Tiled start (lex start cs) := by
  have hread := lex_source_append start (spelled_lex start cs)
  rw [source_lex, List.append_nil, lex_nil, List.append_nil] at hread
  exact ⟨hread.symm, spelled_lex start cs⟩

theorem settle_append (start : Location) (ts us : List Token) :
    settle start (ts ++ us) = settle start ts ++ settle (start.advance (source ts)) us := by
  induction ts generalizing start with
  | nil => rfl
  | cons t ts ih =>
    rw [source_cons, Location.advance_append, List.cons_append, settle, ih]
    rfl

theorem length_settle (start : Location) (ts : List Token) :
    (settle start ts).length = ts.length := by
  induction ts generalizing start with
  | nil => rfl
  | cons t ts ih => exact congrArg (· + 1) (ih _)

namespace Tiled

variable {start : Location} {ts us : List Token}

theorem behind (h : Tiled start (ts ++ us)) : Tiled (start.advance (source ts)) us := by
  have hsettled := h.settled
  rw [settle_append] at hsettled
  exact ⟨(List.append_inj hsettled (length_settle start ts)).2, (spelled_append.1 h.spelled).2⟩

theorem location {t : Token} (h : Tiled start (t :: ts)) : t.location = start := by
  have hsettled := h.settled
  rw [settle, List.cons.injEq] at hsettled
  rw [← hsettled.1]

end Tiled

end Token

namespace Item

variable {start finish : Location}

theorem atRule_landmarks (before name : String) (location : Location) (ts : List Token) :
    (atRule before name location ts).1.landmarks = [⟨location, ['@']⟩] := by
  unfold atRule
  dsimp only
  split <;> rfl

/-- The tokens that a construct is cut from start with its own. -/
theorem source_spanUntil_isPrefix (stop : TokenKind → Bool) (ts : List Token) :
    Token.source (Token.spanUntil stop 0 ts).1 <+: Token.source ts := by
  have hsplit := congrArg Token.source (Token.spanUntil_append stop 0 ts)
  rw [Token.source_append] at hsplit
  exact ⟨_, hsplit⟩

theorem source_significant_isPrefix (ts : List Token) :
    Token.source (significant ts) <+: Token.source ts := by
  have hsplit := congrArg Token.source (dropTrailing_append_trailing Token.isTrivia ts)
  rw [Token.source_append] at hsplit
  exact ⟨_, hsplit⟩

theorem rule_landmarks (before : String) (location : Location) (ts : List Token) :
    ∃ lead, (rule before location (Token.spanUntil endsHead 0 ts).1).1.landmarks =
      [⟨location, lead⟩] ∧ lead <+: Token.source ts := by
  refine ⟨trimEnd (Token.source (Token.spanUntil endsHead 0 ts).1), ?_, ?_⟩
  · simp [rule, landmarks, Opening.landmark, Opening.node, Node.landmark, Node.location, Node.lead]
  · apply List.IsPrefix.trans _ (source_spanUntil_isPrefix endsHead ts)
    exact ⟨_, dropTrailing_append_trailing isBlank _⟩

theorem declaration_landmarks {before : String} {location : Location} {ts : List Token}
    {item : Item} {width : Nat} (h : declaration before location finish ts = .ok (item, width)) :
    ∃ lead, item.landmarks = [⟨location, lead⟩] ∧ lead <+: Token.source ts := by
  refine ⟨Token.source (significant (Token.spanUntil endsProperty 0 ts).1), ?_, ?_⟩
  · simp only [declaration] at h
    split at h
    · split at h
      · cases h
      · obtain ⟨r, hr, hitem⟩ := exists_of_map_eq_ok h
        simp only [declarationValue] at hr
        split at hr
        · cases hr
        · cases hr
          cases hitem
          simp [landmarks, Node.landmarksOf, Node.preorderAll, Node.preorder, Node.landmark,
            Node.location, Node.lead, sourceText]
    · cases h
  · apply (source_significant_isPrefix _).trans
    exact source_spanUntil_isPrefix endsProperty ts

/-- An item that is read makes no node, or one that stands at the first token and starts with its
text. -/
theorem readAt_landmarks {nested : Bool} {before : String} {t : Token} {ts : List Token}
    {item : Item} {width : Nat} (hspelled : Token.Spelled (t :: ts) [])
    (h : readAt nested finish before t ts = .ok (item, width)) :
    item.landmarks = [] ∨
      ∃ lead, item.landmarks = [⟨t.location, lead⟩] ∧ lead <+: Token.source (t :: ts) := by
  have hread := hspelled.1
  rw [List.append_nil, ← Token.source_cons] at hread
  have hattempt := attempt_readAt nested finish before t ts
  generalize readAt nested finish before t ts = r at h hattempt
  cases hattempt with
  | closing kind inside =>
    cases h
    exact .inl rfl
  | unexpected kind outside => cases h
  | stray kind =>
    cases h
    exact .inl rfl
  | comment kind =>
    cases h
    rw [kind] at hread
    obtain ⟨ds, hds, rfl, -⟩ := (Scan.reading_of_token hread).of_comment
    refine .inr ⟨_, rfl, ?_⟩
    rw [hds, Node.lead, String.toList_ofList]
    apply (List.prefix_append_right_inj ['/', '*']).2
    exact Scan.commentContent_isPrefix ds
  | @atRule name kind =>
    cases h
    rw [kind] at hread
    obtain ⟨ds, hds, -⟩ := (Scan.reading_of_token hread).of_atKeyword
    exact .inr ⟨_, atRule_landmarks before name t.location ts, ds, hds.symm⟩
  | rule plain brace =>
    cases h
    exact .inr (rule_landmarks before t.location (t :: ts))
  | declaration plain brace inside => exact .inr (declaration_landmarks h)
  | misplaced plain brace outside => cases h

/-- Where an item is read, its landmark is found in front of those behind it. -/
theorem Next.found {d : Nat} {ts rest : List Token} {item : Item} {ms : List Landmark}
    (h : Next finish d ts item rest) (hts : Token.Tiled start ts)
    (hrest : ∀ front, ts = front ++ rest →
      Landmark.Found (start.advance (Token.source front)) (Token.source rest) ms) :
    Landmark.Found start (Token.source ts) (item.landmarks ++ ms) := by
  have hpass (front : List Token) (hfront : ts = front ++ rest) :
      Landmark.Found start (Token.source ts) ms := by
    have hfound := (hrest front hfront).pass_all (Token.source front)
    rwa [← Token.source_append, ← hfront] at hfound
  cases h with
  | ending blanks ne_nil => exact hpass _ (List.append_nil _).symm
  | @brace ws _ t blanks kind outside => exact hpass (ws ++ [t]) (by simp)
  | @broken ws ts t e blanks starts other fails =>
    refine hpass (ws ++ (t :: ts).take (skipped (t :: ts))) ?_
    rw [List.append_assoc, List.take_append_drop]
  | @whole ws ts t item width blanks starts reads =>
    have hsplit : ws ++ t :: ts = ws ++ (t :: ts).take width ++ (t :: ts).drop width := by
      rw [List.append_assoc, List.take_append_drop]
    have hbehind := hts.behind
    rcases readAt_landmarks hbehind.spelled reads with hnone | ⟨lead, hone, hlead⟩
    · rw [hnone]
      exact hpass _ hsplit
    · have hfound := hrest _ hsplit
      rw [Token.source_append, Location.advance_append] at hfound
      have hpiece : Token.source ((t :: ts).take width) ≠ [] := by
        obtain ⟨n, rfl⟩ := Nat.exists_eq_add_one.2 (width_pos_of_readAt reads)
        have ht := Token.text_ne_nil_of_spelled hbehind.spelled t List.mem_cons_self
        simp [ht]
      rw [hone, Token.source_append]
      apply Landmark.Found.pass_all
      rw [← List.take_append_drop width (t :: ts), Token.source_append] at hlead ⊢
      rw [hbehind.location]
      exact hfound.here_all hpiece hlead

/-- The nodes that a reader reads are found in its text, one behind the other. -/
theorem Course.found {d : Nat} {ts : List Token} {items : List Item}
    (h : Course finish d ts items) (hts : Token.Tiled start ts) :
    Landmark.Found start (Token.source ts) (landmarksOf items) := by
  induction h generalizing start with
  | done => exact .done
  | @step d ts rest item items first others ih =>
    have hfound := first.found hts fun front hfront => ih (by
      rw [hfront] at hts
      exact hts.behind)
    cases item with
    | ending after => exact .done
    | _ => exact hfound

end Item

namespace Stylesheet

/-- The nodes of a stylesheet are found in the text that it is read from. -/
theorem found_of_parse {config : ParseConfig} {text : String} {s : Stylesheet}
    (h : parse config text = .ok s) :
    Landmark.Found config.start (unifyLineEnds text.toList) (s.preorder.map Node.landmark) := by
  obtain ⟨items, hcourse, rfl⟩ := exists_course h
  have hfound := hcourse.found (Token.tiled_lex config.start _)
  rw [Token.source_lex] at hfound
  have hmarks : (preorder (ofItems config.origin items)).map Node.landmark =
      Item.landmarksOf items := landmarks_assemble config.origin [] #[] items
  rwa [hmarks]

/-- Nodes start one behind the other, an outer one before the inner ones, and stand where the
characters before them end, with their own text.  So a visit comes to the rules in the order of the
text. -/
theorem parse_places {config : ParseConfig} {text : String} {s : Stylesheet}
    (h : parse config text = .ok s) :
    let source := unifyLineEnds text.toList
    (s.preorder.map fun n => n.location.offset).Pairwise (· < ·) ∧
    (∀ n ∈ s.preorder,
      let passed := n.location.offset - config.start.offset
      config.start.offset ≤ n.location.offset ∧
        n.location = config.start.advance (source.take passed) ∧ n.lead <+: source.drop passed) ∧
    ∀ edit, (s.visit (fun r => r.head.location.offset) edit).2.Pairwise (· < ·) := by
  intro source
  have hfound := found_of_parse h
  have hpairwise := hfound.pairwise
  rw [List.map_map] at hpairwise
  refine ⟨hpairwise, fun n hn => ?_, fun edit => ?_⟩
  · obtain ⟨front, back, hsource, hplace, hlead⟩ :=
      hfound.stands n.landmark (List.mem_map_of_mem hn)
    have hlocation : n.location = config.start.advance front := hplace
    have hpassed : n.location.offset - config.start.offset = front.length := by
      rw [hlocation, Location.advance_offset, Nat.add_sub_cancel_left]
    dsimp only [source]
    rw [hpassed, hsource, List.take_left, List.drop_left]
    refine ⟨?_, hlocation, hlead⟩
    rw [hlocation, Location.advance_offset]
    exact Nat.le_add_right _ _
  · have hrules : (s.rules.map Node.ofRule).Sublist s.preorder :=
      Node.rulesOfAll_sublist_of fun n _ => n.rules_sublist
    have hvisited := hpairwise.sublist (hrules.map fun n => n.location.offset)
    rw [List.map_map] at hvisited
    rw [visit, Node.visitAll_snd_rules]
    exact hvisited

/-- A brace, a declaration without a colon and semicolons are passed between the nodes. -/
theorem parse_places_passed : ∃ s,
    parse ⟨⟨3, 5, 70⟩, none, true⟩ "\x7d@media tv\x7ba\x7bb;c:d;;/*e*/" = .ok s ∧
      s.preorder.map Node.landmark = [⟨⟨3, 6, 71⟩, ['@']⟩, ⟨⟨3, 16, 81⟩, ['a']⟩,
        ⟨⟨3, 20, 85⟩, ['c']⟩, ⟨⟨3, 25, 90⟩, ['/', '*', 'e']⟩] ∧
      (s.visit (fun r => r.head.location.offset) fun _ r => r).2.Pairwise (· < ·) := by
  have hread : (parse ⟨⟨3, 5, 70⟩, none, true⟩
      "\x7d@media tv\x7ba\x7bb;c:d;;/*e*/").toOption.any (fun s =>
        s.preorder.map Node.landmark = [⟨⟨3, 6, 71⟩, ['@']⟩, ⟨⟨3, 16, 81⟩, ['a']⟩,
          ⟨⟨3, 20, 85⟩, ['c']⟩, ⟨⟨3, 25, 90⟩, ['/', '*', 'e']⟩]) = true := by
    decide +kernel
  rcases hs : parse ⟨⟨3, 5, 70⟩, none, true⟩ "\x7d@media tv\x7ba\x7bb;c:d;;/*e*/" with e | s
  · rw [hs] at hread
    exact absurd hread nofun
  · rw [hs] at hread
    exact ⟨s, rfl, of_decide_eq_true hread, (parse_places hs).2.2 _⟩

end Stylesheet
end GradientFallback
