import GradientFallback.Proofs.Stylesheet.Lenient
import GradientFallback.Proofs.Stylesheet.Tidy

/-! # What a lenient reader makes of a text

A lenient reader passes over tokens and takes the end of the text for the end of all blocks.  What it
takes is laid out as well, but its constructs need not stand side by side: each of them is an excerpt
of the text, and a node that no semicolon ends stands in front of a closing brace or of nothing.
-/
namespace GradientFallback

namespace Token

/-- The tokens stand in front of `x` in a text without carriage returns. -/
structure Excerpt (ts : List Token) (x : List Char) : Prop where
  spelled : Spelled ts x
  no_return : '\r' ∉ source ts ++ x

theorem excerpt_append {ts us : List Token} {x : List Char} :
    Excerpt (ts ++ us) x ↔ Excerpt ts (source us ++ x) ∧ Excerpt us x := by
  constructor
  · rintro ⟨hspelled, hreturn⟩
    obtain ⟨hts, hus⟩ := spelled_append.1 hspelled
    rw [source_append, List.append_assoc] at hreturn
    exact ⟨⟨hts, hreturn⟩, hus, fun hmem => hreturn (List.mem_append_right _ hmem)⟩
  · rintro ⟨⟨hts, hreturn⟩, hus⟩
    refine ⟨spelled_append.2 ⟨hts, hus.spelled⟩, ?_⟩
    rwa [source_append, List.append_assoc]

theorem Excerpt.suffix {ts us : List Token} (h : Excerpt ts []) (hus : us <:+ ts) : Excerpt us [] := by
  obtain ⟨front, rfl⟩ := hus
  exact (excerpt_append.1 h).2

/-- Trivia at the front of a list end where its first other token stands. -/
theorem trivia_split {ws ts trivia rest : List Token} {t : Token}
    (h : ws ++ t :: ts = trivia ++ rest) (hws : AllTrivia ws) (ht : t.isTrivia = false)
    (htrivia : AllTrivia trivia) (hrest : ∀ u ∈ rest.head?, u.isTrivia = false) :
    trivia = ws ∧ rest = t :: ts := by
  have hfront : (ws ++ t :: ts).takeWhile isTrivia = ws :=
    takeWhile_append_of_all hws fun u hu => by cases hu; exact ht
  rw [h, takeWhile_append_of_all htrivia hrest] at hfront
  subst hfront
  exact ⟨rfl, (List.append_cancel_left h).symm⟩

/-- Trivia at the front of a list are the first of those up to its first other token. -/
theorem trivia_append {us more trivia rest : List Token} (h : us ++ more = trivia ++ rest)
    (hus : AllTrivia us) (hrest : ∀ u ∈ rest.head?, u.isTrivia = false) :
    ∃ others, trivia = us ++ others ∧ more = others ++ rest := by
  rcases List.append_eq_append_iff.1 h with ⟨others, rfl, rfl⟩ | ⟨others, rfl, rfl⟩
  · exact ⟨others, rfl, rfl⟩
  · cases others with
    | nil => exact ⟨[], by simp, rfl⟩
    | cons u others =>
      have htrivia := hus u (by simp)
      rw [hrest u rfl] at htrivia
      exact absurd htrivia Bool.false_ne_true

end Token

/-- What can stand behind a block: its closing brace, or nothing. -/
def Stops (x : List Char) : Prop := x = [] ∨ Closes true x

/-- The layout is one of excerpts, in front of the text `x`. -/
inductive Layout.Patched : Bool → List Char → Layout → Prop
  | ending {nested : Bool} {x : List Char} {ws : List Token} (blanks : Token.AllBlank ws)
      (excerpt : Token.Excerpt ws x) : Patched nested x (.ending ws)
  | leaf {nested : Bool} {x y : List Char} {ws ts : List Token} {n : Node} {rest : Layout}
      (blanks : Token.AllBlank ws) (fits : ∀ more, Leaf nested (Item.sourceText ws) ts more n)
      (excerpt : Token.Excerpt (ws ++ ts) y) (others : Patched nested x rest) :
      Patched nested x (.leaf ws ts n rest)
  /-- A node that no semicolon ends is the last one of its block but for comments. -/
  | unended {x : List Char} {ws ts : List Token} {n : Node} {rest : Layout}
      (blanks : Token.AllBlank ws) (unended : Unended true (Item.sourceText ws) ts rest.tokens n)
      (excerpt : Token.Excerpt (ws ++ ts ++ rest.tokens) x)
      (closed : x ≠ [] → Token.depthBehind 0 ts = 0) (others : Patched true x rest) :
      Patched true x (.leaf ws ts n rest)
  /-- Outside of all blocks the brace that ends such a node is passed. -/
  | outside {x y : List Char} {ws ts : List Token} {n : Node} {rest : Layout}
      (blanks : Token.AllBlank ws) (unended : Unended false (Item.sourceText ws) ts [] n)
      (excerpt : Token.Excerpt (ws ++ ts) y) (stops : Stops y) (others : Patched false x rest) :
      Patched false x (.leaf ws ts n rest)
  | block {nested : Bool} {x y z : List Char} {ws head : List Token} {o : Opening}
      {inner rest : Layout} {innerEnd : Token} (blanks : Token.AllBlank ws)
      (opens : Opens (Item.sourceText ws) head o) (excerpt : Token.Excerpt (ws ++ head) y)
      (inside : Patched true z inner) (stops : Stops z) (kind : innerEnd.kind = .rightBrace)
      (text : innerEnd.text = ['\x7d']) (others : Patched nested x rest) :
      Patched nested x (.block ws head o inner innerEnd rest)

namespace Item

open Stylesheet

variable {finish : Location}

/-- How the innermost of `d` open blocks ends, whose items make the nodes: with the text, or with a
brace in front of what belongs to the block around it. -/
inductive Ends (finish : Location) (d : Nat) (items : List Item) (nodes : List Node)
    (after : String) : List Token → Prop
  | text (made : ∀ origin outer before, assemble origin outer before items =
      closeAll origin after outer (before ++ nodes.toArray)) :
      Ends finish d items nodes after []
  | brace {t : Token} {more : List Token} {others : List Item} (inside : d ≠ 0)
      (kind : t.kind = .rightBrace) (course : Course finish (d - 1) more others)
      (made : ∀ origin b outer before, assemble origin (b :: outer) before items =
        assemble origin outer
          (b.nodesBefore.push (b.opening.node (before ++ nodes.toArray).toList after)) others) :
      Ends finish d items nodes after (t :: more)

namespace Ends

variable {d : Nat} {items : List Item} {nodes : List Node} {after : String} {tail : List Token}

theorem stray (h : Ends finish d items nodes after tail) :
    Ends finish d (.stray :: items) nodes after tail := by
  cases h with
  | text made => exact .text fun origin outer before => made origin outer before
  | brace inside kind course made =>
    exact .brace inside kind course fun origin b outer before => made origin b outer before

theorem leaf (n : Node) (h : Ends finish d items nodes after tail) :
    Ends finish d (.leaf n :: items) (n :: nodes) after tail := by
  cases h with
  | text made =>
    refine .text fun origin outer before => ?_
    rw [assemble, made]
    simp
  | brace inside kind course made =>
    refine .brace inside kind course fun origin b outer before => ?_
    rw [assemble, made]
    simp

/-- A block that the text ends is closed there, and so is the one around it. -/
theorem opening_text (o : Opening) (h : Ends finish (d + 1) items nodes after []) :
    Ends finish d (.opening o :: items) [o.node nodes after] "" [] := by
  cases h with
  | text made =>
    refine .text fun origin outer before => ?_
    rw [assemble, made, closeAll]
    simp

/-- A block that a brace closes is followed by the rest of the block around it. -/
theorem opening_brace {t : Token} {more : List Token} (o : Opening)
    (h : Ends finish (d + 1) items nodes after (t :: more)) :
    ∃ others, t.kind = .rightBrace ∧ Course finish d more others ∧
      ∀ {nodes' : List Node} {after' : String} {tail : List Token},
        Ends finish d others nodes' after' tail →
          Ends finish d (.opening o :: items) (o.node nodes after :: nodes') after' tail := by
  cases h with
  | @brace _ _ others inside kind course made =>
    refine ⟨others, kind, course, fun h' => ?_⟩
    cases h' with
    | text made' =>
      refine .text fun origin outer before => ?_
      rw [assemble, made, made']
      simp
    | brace inside' kind' course' made' =>
      refine .brace inside' kind' course' fun origin b outer before => ?_
      rw [assemble, made, made']
      simp

end Ends

/-- The brace that is written where the text ends a block. -/
def missingBrace : Token := ⟨.rightBrace, .origin, ['\x7d']⟩

/-- The layout `c` is what is read of the innermost block, up to the tokens `tail`.  Trivia up to the
end of the block are laid out as they are. -/
structure Block (finish : Location) (d : Nat) (ts : List Token) (items : List Item) (c : Layout)
    (tail : List Token) : Prop where
  patched : c.Patched (d != 0) (Token.source tail)
  suffix : tail <:+ ts
  ends : Ends finish d items c.nodes c.after tail
  trivia : ∀ {trivia rest : List Token}, ts = trivia ++ rest → Token.AllTrivia trivia →
    (∀ t ∈ rest.head?, t.kind = .rightBrace) → (rest = [] ∨ d ≠ 0) →
      c.tokens = trivia ∧ tail = rest

/-- What starts with a comment is that comment, and what starts with a closing brace is the end of a
block. -/
theorem first_of_readAt {nested : Bool} {before : String} {t : Token} {ts : List Token} {item : Item}
    {width : Nat} (hstarts : t.isWhitespace = false)
    (h : readAt nested finish before t ts = .ok (item, width)) :
    (t.isTrivia = true ∧ (∃ n, item = .leaf n) ∧ width = 1) ∨
      t.isTrivia = false ∧ (t.kind = .rightBrace → item = .closing before) := by
  have hattempt := attempt_readAt nested finish before t ts
  generalize readAt nested finish before t ts = r at h hattempt
  have hother (hstays : t.isTrivia = false ∧ t.kind ≠ .rightBrace) :
      t.isTrivia = false ∧ (t.kind = .rightBrace → item = .closing before) :=
    ⟨hstays.1, fun hkind => absurd hkind hstays.2⟩
  cases hattempt with
  | closing kind inside =>
    cases h
    exact .inr ⟨isTrivia_of_rightBrace kind, fun _ => rfl⟩
  | unexpected kind outside => cases h
  | stray kind => exact .inr (hother (isSign_stays kind))
  | comment kind =>
    cases h
    exact .inl ⟨by rw [Token.isTrivia, kind]; rfl, ⟨_, rfl⟩, rfl⟩
  | atRule kind => exact .inr (hother (atKeyword_stays kind))
  | rule plain brace => exact .inr (hother (startsPlain_stays (plain hstarts)))
  | declaration plain brace inside => exact .inr (hother (startsPlain_stays (plain hstarts)))
  | misplaced plain brace outside => cases h

theorem isTrivia_of_error {nested : Bool} {before : String} {t : Token} {ts : List Token}
    {e : ParseError} (hstarts : t.isWhitespace = false)
    (h : readAt nested finish before t ts = .error e) : t.isTrivia = false := by
  by_contra htrivia
  obtain ⟨content, hkind⟩ := Token.comment_of_isTrivia hstarts (by simpa using htrivia)
  simp only [readAt, hkind] at h
  cases h

/-- Where another construct starts there are not only trivia up to the end of the block. -/
theorem not_only_trivia {d : Nat} {ws ts trivia rest : List Token} {t : Token}
    (hws : Token.AllBlank ws) (ht : t.isTrivia = false) (hkind : t.kind = .rightBrace → d = 0)
    (h : ws ++ t :: ts = trivia ++ rest) (htrivia : Token.AllTrivia trivia)
    (hrest : ∀ u ∈ rest.head?, u.kind = .rightBrace) (hd : rest = [] ∨ d ≠ 0) : False := by
  obtain ⟨-, rfl⟩ := Token.trivia_split h hws.allTrivia ht htrivia fun u hu =>
    isTrivia_of_rightBrace (hrest u hu)
  rcases hd with hd | hd
  · exact absurd hd (List.cons_ne_nil t ts)
  · exact hd (hkind (hrest t rfl))

theorem text_of_rightBrace {t : Token} {ts : List Token} (hkind : t.kind = .rightBrace)
    (hts : Token.Excerpt (t :: ts) []) : t.text = ['\x7d'] :=
  Token.text_of_sign (hts.spelled.written t List.mem_cons_self) (by rw [hkind]; rfl)

theorem stops_of_rightBrace {tail : List Token} (hend : ∀ t ∈ tail.head?, t.kind = .rightBrace)
    (htail : Token.Excerpt tail []) : Stops (Token.source tail) := by
  cases tail with
  | nil => exact .inl rfl
  | cons t tail =>
    right
    rw [Token.source_cons, text_of_rightBrace (hend t rfl) htail]
    rfl

namespace Block

variable {d : Nat} {ts ws front more rest tail : List Token} {t : Token} {items : List Item}
  {c : Layout}

/-- The end of the text. -/
theorem text (hws : Token.AllBlank ws) (hts : Token.Excerpt ws [])
    (made : ∀ origin outer before, assemble origin outer before items =
      closeAll origin (sourceText ws) outer before) : Block finish d ws items (.ending ws) [] where
  patched := .ending hws hts
  suffix := List.nil_suffix
  ends := .text fun origin outer before => by
    rw [made]
    simp [Layout.nodes, Layout.after, Layout.last]
  trivia := by
    rintro trivia rest rfl htrivia hrest -
    cases rest with
    | nil => exact ⟨List.append_nil trivia, rfl⟩
    | cons u rest =>
      have hblank := hws u (by simp)
      rw [Token.isWhitespace, hrest u rfl] at hblank
      exact absurd hblank Bool.false_ne_true

/-- The closing brace of a block. -/
theorem closing (hd : d ≠ 0) (hws : Token.AllBlank ws)
    (hts : Token.Excerpt ws (Token.source (t :: more))) (hkind : t.kind = .rightBrace)
    (others : Course finish (d - 1) more items) :
    Block finish d (ws ++ t :: more) (.closing (sourceText ws) :: items) (.ending ws)
      (t :: more) where
  patched := .ending hws hts
  suffix := List.suffix_append ws _
  ends := .brace hd hkind others fun origin b outer before => by
    simp [assemble, Layout.nodes, Layout.after, Layout.last]
  trivia := by
    intro trivia rest h htrivia hrest _
    obtain ⟨rfl, rfl⟩ := Token.trivia_split h hws.allTrivia (isTrivia_of_rightBrace hkind) htrivia
      fun u hu => isTrivia_of_rightBrace (hrest u hu)
    exact ⟨rfl, rfl⟩

/-- Tokens that leave no trace. -/
theorem stray (h : Block finish d rest items c tail) (hrest : rest <:+ ts) {us : List Token}
    (hts : ts = ws ++ t :: us) (hws : Token.AllBlank ws) (ht : t.isTrivia = false)
    (hkind : t.kind = .rightBrace → d = 0) : Block finish d ts (.stray :: items) c tail where
  patched := h.patched
  suffix := h.suffix.trans hrest
  ends := h.ends.stray
  trivia heq htrivia hend hd :=
    (not_only_trivia hws ht hkind (hts.symm.trans heq) htrivia hend hd).elim

/-- A node without a block, which is a comment or starts with another token. -/
theorem leaf {n : Node} (h : Block finish d more items c tail)
    (hpatched : (Layout.leaf ws front n c).Patched (d != 0) (Token.source tail))
    (hws : Token.AllBlank ws) (hfirst : (front = [t] ∧ t.isTrivia = true) ∨
      t.isTrivia = false ∧ t.kind ≠ .rightBrace ∧ ∃ us, front = t :: us) :
    Block finish d (ws ++ (front ++ more)) (.leaf n :: items) (.leaf ws front n c) tail where
  patched := hpatched
  suffix := h.suffix.trans ((List.suffix_append front more).trans (List.suffix_append ws _))
  ends := h.ends.leaf n
  trivia := by
    intro trivia rest heq htrivia hrest hd
    rcases hfirst with ⟨rfl, ht⟩ | ⟨ht, hkind, us, rfl⟩
    · have hfront : Token.AllTrivia (ws ++ [t]) := by
        intro u hu
        rcases List.mem_append.1 hu with hu | hu
        · exact hws.allTrivia u hu
        · rwa [List.mem_singleton.1 hu]
      rw [← List.append_assoc] at heq
      obtain ⟨others, rfl, hmore⟩ := Token.trivia_append heq hfront fun u hu =>
        isTrivia_of_rightBrace (hrest u hu)
      obtain ⟨htokens, htail⟩ := h.trivia hmore
        (fun u hu => htrivia u (List.mem_append_right _ hu)) hrest hd
      exact ⟨congrArg (ws ++ [t] ++ ·) htokens, htail⟩
    · exact (not_only_trivia hws ht (fun hbrace => absurd hbrace hkind) heq htrivia hrest hd).elim

/-- A node that no semicolon ends.  In a block the trivia up to its end are laid out behind the node;
outside of all blocks a closing brace may follow at once. -/
theorem patched_unended {after : List Token} {n : Node} (h : Block finish d more items c tail)
    (hws : Token.AllBlank ws) (hts : Token.Excerpt (ws ++ front ++ more) [])
    (hunended : Unended (d != 0) (sourceText ws) front after n) (hmore : more = after ++ rest)
    (hends : ∀ t ∈ rest.head?, t.kind = .rightBrace)
    (hclosed : rest ≠ [] → Token.depthBehind 0 front = 0) :
    (Layout.leaf ws front n c).Patched (d != 0) (Token.source tail) := by
  have hpatched := h.patched
  cases hd : (d != 0) with
  | true =>
    rw [hd] at hunended hpatched
    obtain ⟨rfl, rfl⟩ : c.tokens = after ∧ tail = rest :=
      h.trivia hmore hunended.after_trivia hends (.inr (by simpa using hd))
    rw [hmore, ← List.append_assoc] at hts
    refine .unended hws hunended ?_ (fun hne => hclosed ?_) hpatched
    · simpa using (Token.excerpt_append.1 hts).1
    · rintro rfl
      exact hne rfl
  | false =>
    rw [hd] at hunended hpatched
    obtain rfl := hunended.after_nil
    obtain rfl : more = rest := hmore
    obtain ⟨hhere, hbehind⟩ := Token.excerpt_append.1 hts
    rw [List.append_nil] at hhere
    exact .outside hws hunended hhere (stops_of_rightBrace hends hbehind) hpatched

/-- A block that the text ends. -/
theorem block_text {y : List Char} {o : Opening} {inner : Layout} {us : List Token}
    (h : Block finish (d + 1) more items inner []) (hws : Token.AllBlank ws)
    (hopens : Opens (sourceText ws) front o) (hts : Token.Excerpt (ws ++ front) y)
    (hfront : front = t :: us) (ht : t.isTrivia = false) (hkind : t.kind ≠ .rightBrace) :
    Block finish d (ws ++ (front ++ more)) (.opening o :: items)
      (.block ws front o inner missingBrace (.ending [])) [] where
  patched := .block hws hopens hts h.patched (.inl rfl) rfl rfl
    (.ending (List.forall_mem_nil _) ⟨trivial, List.not_mem_nil⟩)
  suffix := List.nil_suffix
  ends := h.ends.opening_text o
  trivia heq htrivia hrest hd := by
    rw [hfront] at heq
    exact (not_only_trivia hws ht (fun hbrace => absurd hbrace hkind) heq htrivia hrest hd).elim

/-- A block that a brace closes, with the rest of the block around it. -/
theorem block_brace {y : List Char} {o : Opening} {inner : Layout} {u : Token} {us : List Token}
    (h : Block finish (d + 1) more items inner (u :: tail)) (hws : Token.AllBlank ws)
    (hopens : Opens (sourceText ws) front o) (hts : Token.Excerpt (ws ++ front) y)
    (hmore : Token.Excerpt more []) (hfront : front = t :: us) (ht : t.isTrivia = false)
    (hkind : t.kind ≠ .rightBrace) :
    ∃ others, Course finish d tail others ∧ ∀ {c tail'}, Block finish d tail others c tail' →
      Block finish d (ws ++ (front ++ more)) (.opening o :: items)
        (.block ws front o inner u c) tail' := by
  obtain ⟨others, hend, hcourse, hends⟩ := h.ends.opening_brace o
  have htail := hmore.suffix h.suffix
  refine ⟨others, hcourse, fun hrest => ?_⟩
  have hsuffix : tail <:+ ws ++ (front ++ more) :=
    (List.suffix_cons u tail).trans (h.suffix.trans
      ((List.suffix_append front more).trans (List.suffix_append ws _)))
  have hstops : Stops (Token.source (u :: tail)) :=
    stops_of_rightBrace (fun v hv => by cases hv; exact hend) htail
  exact {
    patched := .block hws hopens hts h.patched hstops hend (text_of_rightBrace hend htail)
      hrest.patched
    suffix := hrest.suffix.trans hsuffix
    ends := hends hrest.ends
    trivia := fun heq htrivia hlast hd => by
      rw [hfront] at heq
      exact (not_only_trivia hws ht (fun hbrace => absurd hbrace hkind) heq htrivia hlast hd).elim }

end Block

/-- An item that is taken and what is read behind it. -/
theorem Taken.exists_block {d : Nat} {ws front more us : List Token} {t : Token} {item : Item}
    {items : List Item} (h : Taken (d != 0) (sourceText ws) more front item)
    (hws : Token.AllBlank ws) (hts : Token.Excerpt (ws ++ (front ++ more)) [])
    (hfront : front = t :: us)
    (hfirst : (t.isTrivia = true ∧ (∃ n, item = .leaf n) ∧ us = []) ∨
      t.isTrivia = false ∧ (t.kind = .rightBrace → item = .closing (sourceText ws)))
    (others : Course finish (item.depth d) more items)
    (ih : ∀ {d' ts' items'}, ts'.length ≤ more.length → Course finish d' ts' items' →
      Token.Excerpt ts' [] → ∃ c tail, Block finish d' ts' items' c tail) :
    ∃ c tail, Block finish d (ws ++ (front ++ more)) (item :: items) c tail := by
  rw [← List.append_assoc] at hts
  obtain ⟨hhere, hmore⟩ := Token.excerpt_append.1 hts
  rw [List.append_nil] at hhere
  have hleaf (n : Node) (hn : item = .leaf n) : (front = [t] ∧ t.isTrivia = true) ∨
      t.isTrivia = false ∧ t.kind ≠ .rightBrace ∧ ∃ us, front = t :: us := by
    rcases hfirst with ⟨ht, -, rfl⟩ | ⟨ht, hclosing⟩
    · exact .inl ⟨hfront, ht⟩
    · refine .inr ⟨ht, fun hkind => ?_, us, hfront⟩
      exact absurd (hn.symm.trans (hclosing hkind)) nofun
  cases h with
  | @closing u inside kind =>
    have hd : d ≠ 0 := by simpa using inside
    refine ⟨_, _, .closing hd hws ?_ kind others⟩
    simpa using (Token.excerpt_append.1 hhere).1
  | @stray u kind =>
    obtain ⟨c, tail, hblock⟩ := ih (Nat.le_refl _) others hmore
    have hstays := isSign_stays kind
    exact ⟨c, tail, hblock.stray ((List.suffix_append [u] more).trans (List.suffix_append ws _))
      rfl hws hstays.1 fun hbrace => absurd hbrace hstays.2⟩
  | @opening _ o opens =>
    obtain ⟨ht, hbrace⟩ : t.isTrivia = false ∧ t.kind ≠ .rightBrace := by
      rcases hfirst with ⟨-, ⟨n, hn⟩, -⟩ | ⟨ht, hclosing⟩
      · exact absurd hn nofun
      · exact ⟨ht, fun hkind => absurd (hclosing hkind) nofun⟩
    obtain ⟨inner, tail, hinner⟩ := ih (Nat.le_refl _) others hmore
    cases tail with
    | nil => exact ⟨_, _, .block_text hinner hws opens hhere hfront ht hbrace⟩
    | cons u tail =>
      obtain ⟨others', hcourse, hblock⟩ :=
        hinner.block_brace hws opens hhere hmore hfront ht hbrace
      have hsuffix := (List.suffix_cons u tail).trans hinner.suffix
      obtain ⟨c, tail', hrest⟩ := ih hsuffix.length_le hcourse (hmore.suffix hsuffix)
      exact ⟨_, _, hblock hrest⟩
  | @whole _ n fits =>
    obtain ⟨c, tail, hblock⟩ := ih (Nat.le_refl _) others hmore
    exact ⟨_, _, hblock.leaf (.leaf hws fits hhere hblock.patched) hws (hleaf n rfl)⟩
  | @unended _ after rest n unended behind ends closed =>
    have hcourse : Course finish d more items := others
    obtain ⟨c, tail, hblock⟩ := ih (Nat.le_refl _) hcourse hmore
    have hpatched := hblock.patched_unended hws hts unended behind ends closed
    exact ⟨_, _, hblock.leaf hpatched hws (hleaf n rfl)⟩

/-- The tokens up to the end of the text, or of a block, that a lenient reader goes through. -/
theorem Course.exists_block {d : Nat} {ts : List Token} {items : List Item}
    (h : Course finish d ts items) (hts : Token.Excerpt ts []) :
    ∃ c tail, Block finish d ts items c tail := by
  induction hl : ts.length using Nat.strongRecOn generalizing d ts items with
  | ind l ih =>
    cases h with
    | done => exact ⟨_, _, .text (List.forall_mem_nil _) hts fun _ _ _ => rfl⟩
    | @step _ _ rest _ items first others =>
      have hshort := first.length_lt
      rw [hl] at hshort
      cases first with
      | ending blanks ne_nil => exact ⟨_, _, .text blanks hts fun _ _ _ => rfl⟩
      | @brace ws _ t blanks kind outside =>
        have hrest : rest <:+ ws ++ t :: rest :=
          (List.suffix_cons t rest).trans (List.suffix_append ws _)
        obtain ⟨c, tail, hblock⟩ := ih _ hshort others (hts.suffix hrest) rfl
        exact ⟨c, tail, hblock.stray hrest rfl blanks (isTrivia_of_rightBrace kind) fun _ => outside⟩
      | @broken ws us t e blanks starts other fails =>
        have hrest : (t :: us).drop (skipped (t :: us)) <:+ ws ++ t :: us :=
          (List.drop_suffix _ _).trans (List.suffix_append ws _)
        obtain ⟨c, tail, hblock⟩ := ih _ hshort others (hts.suffix hrest) rfl
        refine ⟨c, tail, hblock.stray hrest rfl blanks ?_ fun hbrace => absurd hbrace other⟩
        exact isTrivia_of_error starts fails
      | @whole ws us t item width blanks starts reads =>
        obtain ⟨front, more, hsplit, hlength, htaken⟩ := taken_readAt starts reads
        have hrest : (t :: us).drop width = more := by
          rw [hsplit, ← hlength, List.drop_left]
        have hfront : front = t :: front.drop 1 := by
          cases front with
          | nil => exact absurd (width_pos_of_readAt reads) (by simp [← hlength])
          | cons u front => rw [(List.cons.inj hsplit).1]; rfl
        rw [hrest] at others hshort
        rw [hsplit] at hts ⊢
        refine htaken.exists_block blanks hts hfront ?_ others fun {d' ts' items'} hle hcourse hts' =>
          ih _ (Nat.lt_of_le_of_lt hle hshort) hcourse hts' rfl
        refine (first_of_readAt starts reads).imp_left fun ⟨ht, hn, hone⟩ => ⟨ht, hn, ?_⟩
        apply List.eq_nil_of_length_eq_zero
        rw [List.length_drop, hlength, hone]

end Item

end GradientFallback
