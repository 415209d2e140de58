import GradientFallback.Stylesheet.Parser
import Mathlib.Data.List.Basic

/-! # The place where a text starts

No decision of the reader depends on a place: places are copied from the tokens into the tree and
into the errors.  So reading moved tokens gives the tree that was read, with its places moved in the
same way, and a text that starts at another place is read like the same text on its own.
-/
namespace GradientFallback

/-! ## Moving -/

section Moved

variable (f : Location → Location)

/-- The token at another place. -/
def Token.moved (t : Token) : Token := { t with location := f t.location }

def RuleHead.moved (h : RuleHead) : RuleHead := { h with location := f h.location }

def AtRuleHead.moved (h : AtRuleHead) : AtRuleHead := { h with location := f h.location }

def Declaration.moved (d : Declaration) : Declaration := { d with location := f d.location }

def Comment.moved (c : Comment) : Comment := { c with location := f c.location }

mutual

/-- The node with its places and those of all nodes in it moved by `f`, and all else as it is. -/
def Node.moved : Node → Node
  | .rule head nodes after => .rule (head.moved f) (Node.movedAll nodes) after
  | .atRule head nodes after => .atRule (head.moved f) (Node.movedAll nodes) after
  | .statement head semicolon => .statement (head.moved f) semicolon
  | .declaration d => .declaration (d.moved f)
  | .comment c => .comment (c.moved f)

def Node.movedAll : List Node → List Node
  | [] => []
  | n :: ns => n.moved :: Node.movedAll ns

end

theorem Node.movedAll_eq_map (nodes : List Node) : movedAll f nodes = nodes.map (moved f) := by
  induction nodes with
  | nil => rfl
  | cons n nodes ih => rw [movedAll, ih, List.map_cons]

def Opening.moved : Opening → Opening
  | .rule head => .rule (head.moved f)
  | .atRule head => .atRule (head.moved f)

def Item.moved : Item → Item
  | .leaf n => .leaf (n.moved f)
  | .opening o => .opening (o.moved f)
  | item => item

def OpenBlock.moved (b : OpenBlock) : OpenBlock := ⟨b.opening.moved f, b.nodesBefore.map (Node.moved f)⟩

def Stylesheet.moved (s : Stylesheet) : Stylesheet := { s with nodes := s.nodes.map (Node.moved f) }

def ParseError.moved (e : ParseError) : ParseError := { e with location := f e.location }

/-- What is read with its places moved by `move`, or what is wrong at its moved place. -/
def ParseError.movedOr {α : Type} (move : α → α) : Except ParseError α → Except ParseError α
  | .ok a => .ok (move a)
  | .error e => .error (e.moved f)

@[simp] theorem ParseError.movedOr_ok {α : Type} (move : α → α) (a : α) :
    movedOr f move (.ok a) = .ok (move a) := rfl

@[simp] theorem ParseError.movedOr_error {α : Type} (move : α → α) (e : ParseError) :
    movedOr f move (.error e) = .error (e.moved f) := rfl

end Moved

variable (f : Location → Location)

/-! ## Moved tokens -/

namespace Token

@[simp] theorem moved_kind (t : Token) : (t.moved f).kind = t.kind := rfl

@[simp] theorem moved_text (t : Token) : (t.moved f).text = t.text := rfl

@[simp] theorem source_moved (ts : List Token) : source (ts.map (moved f)) = source ts := by
  induction ts with
  | nil => rfl
  | cons t ts ih => rw [List.map_cons, source, List.flatMap_cons]; exact congrArg (t.text ++ ·) ih

@[simp] theorem headKind_moved (ts : List Token) : headKind (ts.map (moved f)) = headKind ts := by
  cases ts <;> rfl

@[simp] theorem start_moved (finish : Location) (ts : List Token) :
    start (f finish) (ts.map (moved f)) = f (start finish ts) := by
  cases ts <;> rfl

/-- A moved list is cut where the list is cut. -/
theorem spanUntil_moved (stop : TokenKind → Bool) (depth : Nat) (ts : List Token) :
    spanUntil stop depth (ts.map (moved f)) =
      ((spanUntil stop depth ts).1.map (moved f), (spanUntil stop depth ts).2.map (moved f)) := by
  induction ts generalizing depth with
  | nil => rfl
  | cons t ts ih =>
    rw [List.map_cons, spanUntil, spanUntil, moved_kind, ih]
    split <;> rfl

theorem dropTrailing_moved {p : Token → Bool} (hp : p ∘ moved f = p) (ts : List Token) :
    dropTrailing p (ts.map (moved f)) = (dropTrailing p ts).map (moved f) := by
  induction ts with
  | nil => rfl
  | cons t ts ih =>
    have ht : p (t.moved f) = p t := congrFun hp t
    rw [List.map_cons, dropTrailing_cons, dropTrailing_cons, ih, List.isEmpty_map, ht]
    split <;> rfl

theorem takeWhile_moved {p : Token → Bool} (hp : p ∘ moved f = p) (ts : List Token) :
    (ts.map (moved f)).takeWhile p = (ts.takeWhile p).map (moved f) := by
  rw [List.takeWhile_map, hp]

end Token

namespace Item

open ParseError (movedOr movedOr_ok movedOr_error)

@[simp] theorem sourceText_moved (ts : List Token) :
    sourceText (ts.map (Token.moved f)) = sourceText ts := by
  rw [sourceText, Token.source_moved, sourceText]

@[simp] theorem depth_moved (d : Nat) (item : Item) : (item.moved f).depth d = item.depth d := by
  cases item <;> rfl

theorem significant_moved (ts : List Token) :
    significant (ts.map (Token.moved f)) = (significant ts).map (Token.moved f) :=
  Token.dropTrailing_moved f rfl ts

/-- An item and the number of its tokens, with its places moved. -/
def movedRead (r : Item × Nat) : Item × Nat := (r.1.moved f, r.2)

theorem atRule_moved (before name : String) (location : Location) (ts : List Token) :
    atRule before name (f location) (ts.map (Token.moved f)) =
      movedRead f (atRule before name location ts) := by
  simp only [atRule, Token.spanUntil_moved, Token.headKind_moved, Token.source_moved,
    List.length_map]
  split <;> rfl

theorem rule_moved (before : String) (location : Location) (run : List Token) :
    rule before (f location) (run.map (Token.moved f)) = movedRead f (rule before location run) := by
  simp only [rule, Token.source_moved, List.length_map]
  rfl

theorem declarationValue_moved (property before between : String) (location finish : Location)
    (ts : List Token) :
    declarationValue property before between (f location) (f finish) (ts.map (Token.moved f)) =
      movedOr f (movedRead f) (declarationValue property before between location finish ts) := by
  simp only [declarationValue, Token.takeWhile_moved f (p := Token.isTrivia) rfl, List.length_map,
    ← List.map_drop, Token.spanUntil_moved, significant_moved, Token.source_moved,
    Token.headKind_moved, Token.start_moved, sourceText_moved]
  split
  · rfl
  split
  · rw [movedOr_ok, sourceText_moved]
    rfl
  · rfl

theorem movedOr_map_read (n : Nat) (r : Except ParseError (Item × Nat)) :
    movedOr f (movedRead f) (r.map fun r => (r.1, n + r.2)) =
      (movedOr f (movedRead f) r).map fun r => (r.1, n + r.2) := by
  cases r <;> rfl

theorem declaration_moved (before : String) (location finish : Location) (ts : List Token) :
    declaration before (f location) (f finish) (ts.map (Token.moved f)) =
      movedOr f (movedRead f) (declaration before location finish ts) := by
  rcases hcut : Token.spanUntil endsProperty 0 ts with ⟨run, _ | ⟨⟨kind, place, text⟩, more⟩⟩
  · simp only [declaration, Token.spanUntil_moved, hcut, List.map_nil]
    rfl
  cases kind with
  | colon =>
    simp only [declaration, Token.spanUntil_moved, hcut, List.map_cons, Token.moved,
      significant_moved, List.length_map, ← List.map_drop, sourceText_moved, List.map_eq_nil_iff]
    split
    · rfl
    · rw [declarationValue_moved, movedOr_map_read]
  | _ =>
    simp only [declaration, Token.spanUntil_moved, hcut, List.map_cons, Token.moved]
    rfl

/-- The item at tokens whose first one does not tell which item it is. -/
def headOrDeclaration (nested : Bool) (finish : Location) (before : String) (location : Location)
    (ts : List Token) : Except ParseError (Item × Nat) :=
  let (run, rest) := Token.spanUntil endsHead 0 ts
  if Token.headKind rest = .leftBrace then .ok (rule before location run)
  else if nested then declaration before location finish ts
  else .error ⟨.declarationOutsideRule, location⟩

theorem headOrDeclaration_moved (nested : Bool) (finish : Location) (before : String)
    (location : Location) (ts : List Token) :
    headOrDeclaration nested (f finish) before (f location) (ts.map (Token.moved f)) =
      movedOr f (movedRead f) (headOrDeclaration nested finish before location ts) := by
  simp only [headOrDeclaration, Token.spanUntil_moved, Token.headKind_moved]
  split
  · exact congrArg Except.ok (rule_moved f before location _)
  split
  · exact declaration_moved f before location finish ts
  · rfl

theorem readAt_moved (nested : Bool) (finish : Location) (before : String) (t : Token)
    (ts : List Token) :
    readAt nested (f finish) before (t.moved f) (ts.map (Token.moved f)) =
      movedOr f (movedRead f) (readAt nested finish before t ts) := by
  have hother := headOrDeclaration_moved f nested finish before t.location (t :: ts)
  rcases t with ⟨kind, place, text⟩
  cases kind with
  | rightBrace => cases nested <;> rfl
  | semicolon => rfl
  | commentOpen => rfl
  | commentClose => rfl
  | comment content => rfl
  | atKeyword name =>
    exact congrArg (fun r => Except.ok (r.1, r.2 + 1)) (atRule_moved f before name place ts)
  | _ => exact hother

theorem brokenWidth_moved (ts : List Token) :
    brokenWidth (ts.map (Token.moved f)) = brokenWidth ts := by
  simp only [brokenWidth, Token.spanUntil_moved, Token.headKind_moved, List.length_map]

theorem read_moved (lenient nested : Bool) (finish : Location) (ts : List Token) :
    read lenient nested (f finish) (ts.map (Token.moved f)) =
      movedOr f (movedRead f) (read lenient nested finish ts) := by
  simp only [read, Token.takeWhile_moved f (p := Token.isWhitespace) rfl, List.length_map,
    ← List.map_drop, sourceText_moved]
  rcases ts.drop (ts.takeWhile Token.isWhitespace).length with _ | ⟨t, more⟩
  · rfl
  simp only [List.map_cons, readAt_moved]
  rcases readAt nested finish (sourceText (ts.takeWhile Token.isWhitespace)) t more with
    e | ⟨item, width⟩
  · cases lenient
    · rfl
    · simp only [movedOr_error, if_true, ← List.map_cons, brokenWidth_moved]
      rfl
  · rfl

/-- The items with their places moved. -/
def movedPieces (items : List (Piece Token Item)) : List (Piece Token Item) :=
  items.map fun p => ⟨p.value.moved f, p.text.map (Token.moved f)⟩

theorem readFrom_moved (lenient : Bool) (finish : Location) (pending d : Nat) (ts : List Token) :
    readFrom lenient (f finish) pending d (ts.map (Token.moved f)) =
      movedOr f (movedPieces f) (readFrom lenient finish pending d ts) := by
  induction ts generalizing pending d with
  | nil =>
    rw [List.map_nil, readFrom, readFrom]
    split <;> rfl
  | cons t ts ih =>
    cases pending with
    | succ pending => exact ih pending d
    | zero =>
      rw [List.map_cons, readFrom, readFrom, ← List.map_cons, read_moved]
      rcases read lenient (d != 0) finish (t :: ts) with e | ⟨item, width⟩
      · rfl
      · simp only [movedOr_ok, movedRead, depth_moved, ih]
        rcases readFrom lenient finish (width - 1) (item.depth d) ts with e | items
        · rfl
        · simp only [movedOr_ok, Except.map, movedPieces, List.map_cons, List.map_take]

end Item

namespace Stylesheet

open ParseError (movedOr movedOr_ok movedOr_error)

theorem node_moved (o : Opening) (nodes : List Node) (after : String) :
    (o.moved f).node (nodes.map (Node.moved f)) after = (o.node nodes after).moved f := by
  cases o <;> simp only [Opening.moved, Opening.node, Node.moved, Node.movedAll_eq_map]

theorem closeAll_moved (origin : Option String) (after : String) (outer : List OpenBlock)
    (nodes : Array Node) :
    closeAll origin after (outer.map (OpenBlock.moved f)) (nodes.map (Node.moved f)) =
      (closeAll origin after outer nodes).moved f := by
  induction outer generalizing after nodes with
  | nil => simp only [List.map_nil, closeAll, moved, Array.toList_map]
  | cons b outer ih =>
    rw [List.map_cons, closeAll, closeAll, ← ih, Array.map_push, ← node_moved, Array.toList_map]
    rfl

/-- Moved items make the tree with its places moved. -/
theorem assemble_moved (origin : Option String) (outer : List OpenBlock) (nodes : Array Node)
    (items : List Item) :
    assemble origin (outer.map (OpenBlock.moved f)) (nodes.map (Node.moved f))
        (items.map (Item.moved f)) =
      (assemble origin outer nodes items).moved f := by
  induction items generalizing outer nodes with
  | nil => exact closeAll_moved f origin "" outer nodes
  | cons item items ih =>
    cases item with
    | leaf n =>
      rw [List.map_cons, Item.moved, assemble, assemble, ← ih, Array.map_push]
    | opening o =>
      rw [List.map_cons, Item.moved, assemble, assemble, ← ih, Array.map_empty]
      rfl
    | closing after =>
      cases outer with
      | nil => exact ih [] nodes
      | cons b outer =>
        simp only [List.map_cons, Item.moved, assemble, ← ih, Array.map_push, ← node_moved,
          Array.toList_map]
        rfl
    | stray => exact ih outer nodes
    | ending after => exact closeAll_moved f origin after outer nodes

/-- Reading moved tokens gives the stylesheet, or what is wrong, with its places moved. -/
theorem ofTokens_moved (config : ParseConfig) (finish : Location) (ts : List Token) :
    ofTokens config (f finish) (ts.map (Token.moved f)) =
      movedOr f (moved f) (ofTokens config finish ts) := by
  rw [ofTokens, Item.readAll, Item.readFrom_moved, ofTokens, Item.readAll]
  rcases Item.readFrom config.lenient finish 0 0 ts with e | items
  · rfl
  · have hvalues : Piece.values (Item.movedPieces f items) =
        (Piece.values items).map (Item.moved f) := by
      simp only [Piece.values, Item.movedPieces, List.map_map, Function.comp_def]
    have hsheet := assemble_moved f config.origin [] #[] (Piece.values items)
    rw [List.map_nil, Array.map_empty, ← hvalues] at hsheet
    exact congrArg Except.ok hsheet

end Stylesheet

/-! ## Texts that start elsewhere -/

theorem Location.Counted.advance {l : Location} (h : l.Counted) (cs : List Char) :
    (l.advance cs).Counted := by
  induction cs generalizing l with
  | nil => exact h
  | cons c cs ih => exact ih (h.next c)

theorem Token.place_within {l : Location} (h : l.Counted) (start : Location)
    (ps : List (Piece Char TokenKind)) :
    place (start.within l) ps = (place l ps).map (moved start.within) := by
  induction ps generalizing l with
  | nil => rfl
  | cons p ps ih =>
    rw [place, place, Location.advance_within h, ih (h.advance p.text)]
    rfl

/-- The tokens of a text that starts at `start` are those of the text on its own, moved there. -/
theorem Token.lex_start (start : Location) (cs : List Char) :
    lex start cs = (lex .origin cs).map (moved start.within) := by
  have horigin : Location.origin.Counted := ⟨Nat.le_refl 1, Nat.le_refl 1⟩
  have hplace := place_within horigin start (segment Scan.token cs)
  rwa [Location.within_origin] at hplace

namespace Stylesheet

/-- Strictly or leniently, a text that starts at `config.start` is read like the same text at the
first place.  The tree and the errors are the same but for their places, and the places are moved to
where the text starts: columns of its first line only, lines and offsets everywhere. -/
theorem parse_start (config : ParseConfig) (text : String) :
    parse config text =
      match parse { config with start := .origin } text with
      | .ok s => .ok (s.moved config.start.within)
      | .error e => .error (e.moved config.start.within) := by
  have hread := ofTokens_moved config.start.within { config with start := .origin }
    (Location.origin.advance (unifyLineEnds text.toList))
    (Token.lex .origin (unifyLineEnds text.toList))
  rw [Location.within_advance_origin, ← Token.lex_start] at hread
  rw [parse, parse, ofChars, ofChars]
  refine Eq.trans hread ?_
  cases ofTokens { config with start := .origin } _ _ <;> rfl

end Stylesheet
end GradientFallback
