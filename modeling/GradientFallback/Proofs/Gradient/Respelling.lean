import GradientFallback.Gradient.Parser
import GradientFallback.Proofs.Token.Caseless

/-! # Gradients in another spelling

What a gradient asks of a token does not depend on the case of its letters, nor on its place.  So
tokens that are spelled in another way, character by character, are read as the same gradient, with
the colors and positions spelled in that way.
-/
namespace GradientFallback

/-- The text with every character replaced. -/
def mapText (f : Char → Char) (s : String) : String := String.ofList (s.toList.map f)

@[simp] theorem mapText_id (s : String) : mapText id s = s := by simp [mapText]

namespace TokenKind

/-- What a test says of a token in small letters, it says of the token. -/
theorem congr_folded {α : Type} {p : TokenKind → α} (hp : ∀ k : TokenKind, p k.folded = p k)
    {k l : TokenKind} (h : k.folded = l.folded) : p k = p l := by
  rw [← hp k, h, hp l]

theorem isTrivia_folded (k : TokenKind) : k.folded.isTrivia = k.isTrivia := by cases k <;> rfl

theorem isWhitespace_folded (k : TokenKind) : k.folded.isWhitespace = k.isWhitespace := by
  cases k <;> rfl

theorem opens_folded (k : TokenKind) : k.folded.opens = k.opens := by cases k <;> rfl

theorem closes_folded (k : TokenKind) : k.folded.closes = k.closes := by cases k <;> rfl

theorem isIdentNamed_folded (name : String) (k : TokenKind) :
    k.folded.isIdentNamed name = k.isIdentNamed name := by
  cases k <;> simp [folded, isIdentNamed, sameLetters]

end TokenKind

namespace Gradient

theorem angle?_folded (k : TokenKind) : angle? k.folded = angle? k := by
  cases k <;> simp [TokenKind.folded, angle?, AngleUnit.ofName?]

theorem side?_folded (k : TokenKind) : side? k.folded = side? k := by
  cases k <;> simp [TokenKind.folded, side?, Side.ofName?]

/-- Whether a color stop ends with the token, and if so, whether it is the last one. -/
def isLast? : TokenKind → Option Bool
  | .comma => some false
  | .rightParen => some true
  | _ => none

/-- Whether a gradient starts with the token. -/
def opensGradient : TokenKind → Bool
  | .function name => sameLetters name "linear-gradient"
  | _ => false

/-- Whether the token is a position. -/
def isPosition : TokenKind → Bool
  | .number _ => true
  | .percentage _ => true
  | .dimension _ _ => true
  | _ => false

/-- Whether a color starts with the token, and if so, whether its arguments follow. -/
def opensColor? : TokenKind → Option Bool
  | .hash _ => some false
  | .idHash _ => some false
  | .ident _ => some false
  | .function name => if isColorFunction name then some true else none
  | _ => none

theorem isLast?_folded (k : TokenKind) : isLast? k.folded = isLast? k := by cases k <;> rfl

theorem opensGradient_folded (k : TokenKind) : opensGradient k.folded = opensGradient k := by
  cases k <;> simp [TokenKind.folded, opensGradient, sameLetters]

theorem isColorFunction_lowerCase (name : String) :
    isColorFunction (lowerCase name) = isColorFunction name := by
  simp [isColorFunction, sameLetters]

theorem isPosition_folded (k : TokenKind) : isPosition k.folded = isPosition k := by cases k <;> rfl

theorem opensColor?_folded (k : TokenKind) : opensColor? k.folded = opensColor? k := by
  cases k <;> simp [TokenKind.folded, opensColor?, isColorFunction_lowerCase]

theorem position?_cons (t : Token) (ts : List Token) :
    position? (t :: ts) = if isPosition t.kind then some t else none := by
  rw [position?]
  cases t.kind <;> rfl

theorem color?_eq (t : Token) (ts : List Token) :
    color? t ts = (opensColor? t.kind).bind fun called =>
      if called then (closing? 0 ts).map (t :: ·) else some [t] := by
  rw [color?]
  cases t.kind with
  | function name => cases hcolor : isColorFunction name <;> simp [opensColor?, hcolor]
  | _ => rfl

end Gradient

def ColorStop.mapText (f : Char → Char) (s : ColorStop) : ColorStop :=
  ⟨GradientFallback.mapText f s.color, s.position.map (GradientFallback.mapText f)⟩

def Gradient.mapText {α : Type} (f : Char → Char) (g : Gradient α) : Gradient α :=
  ⟨g.heading, g.stops.map (ColorStop.mapText f)⟩

/-- A heading counts if the next token that is no trivia is a comma. -/
theorem Gradient.readHeading_of_line? {ts rest : List Token} {h : Heading Float}
    (hline : line? ts = some (h, rest)) : readHeading ts =
      if Token.headKind (skipTrivia rest) == .comma then (h, (skipTrivia rest).tail)
      else (.none, ts) := by
  simp only [readHeading, hline]
  rcases skipTrivia rest with _ | ⟨⟨kind, location, text⟩, behind⟩
  · rfl
  · cases kind <;> rfl

/-- A color stop goes on behind its color, up to the token that ends it. -/
theorem Gradient.stop?_of_color {t : Token} {ts more color : List Token}
    (hskip : skipTrivia ts = t :: more) (hcolor : color? t more = some color) : stop? ts =
      let behindColor := skipTrivia ((t :: more).drop color.length)
      let position := position? behindColor
      let behind := skipTrivia (if position.isSome then behindColor.tail else behindColor)
      (isLast? (Token.headKind behind)).map fun last =>
        (⟨written color, position.map fun p => written [p]⟩, last,
          ts.length + 1 - behind.length) := by
  simp only [stop?, hskip, hcolor]
  generalize Token.headKind _ = kind
  cases kind <;> rfl

/-- A gradient is a function of two or more color stops. -/
theorem Gradient.ofTokens?_of_skip {t : Token} {ts rest : List Token}
    (hskip : skipTrivia ts = t :: rest) : ofTokens? ts =
      if opensGradient t.kind then (stopsFrom 0 (readHeading rest).2).bind fun stops =>
        if stops.length < 2 then none else some ⟨(readHeading rest).1, stops⟩
      else none := by
  simp only [ofTokens?, hskip]
  rcases t with ⟨kind, location, text⟩
  cases kind with
  | function name =>
    have hopens : opensGradient (.function name) = sameLetters name "linear-gradient" := rfl
    rw [hopens]
    by_cases hname : sameLetters name "linear-gradient" = true
    · simp only [hname, if_true]
      cases stopsFrom 0 (readHeading rest).2 <;> rfl
    · simp only [hname, Bool.false_eq_true, if_false]
  | _ => rfl

/-- Each token gets the characters that `f` makes of its own, and stays the same in small letters. -/
structure Token.Respells (f : Char → Char) (φ : Token → Token) : Prop where
  folded : ∀ t, (φ t).kind.folded = t.kind.folded
  text : ∀ t, (φ t).text = t.text.map f

namespace Gradient

variable {f : Char → Char} {φ : Token → Token}

section Respelling

variable (h : Token.Respells f φ)

include h

theorem isTrivia_respell (t : Token) : (φ t).isTrivia = t.isTrivia :=
  TokenKind.congr_folded TokenKind.isTrivia_folded (h.folded t)

theorem headKind_respell (ts : List Token) :
    (Token.headKind (ts.map φ)).folded = (Token.headKind ts).folded := by
  cases ts with
  | nil => rfl
  | cons t ts => exact h.folded t

theorem written_respell (ts : List Token) :
    written (ts.map φ) = GradientFallback.mapText f (written ts) := by
  have hsource : Token.source (ts.map φ) = (Token.source ts).map f := by
    simp only [Token.source, List.flatMap_map, h.text, List.map_flatMap]
  rw [written, hsource, GradientFallback.mapText, written, String.toList_ofList]

theorem skipTrivia_respell (ts : List Token) : skipTrivia (ts.map φ) = (skipTrivia ts).map φ := by
  rw [skipTrivia, List.dropWhile_map, show Token.isTrivia ∘ φ = Token.isTrivia from
    funext (isTrivia_respell h), skipTrivia]

/-! ## The heading -/

theorem nextSide?_respell (ts : List Token) :
    nextSide? (ts.map φ) = (nextSide? ts).map fun r => (r.1, r.2.map φ) := by
  simp only [nextSide?, skipTrivia_respell h]
  cases skipTrivia ts with
  | nil => rfl
  | cons t rest =>
    simp only [List.map_cons, TokenKind.congr_folded side?_folded (h.folded t), Option.map_map]
    rfl

theorem sides?_respell (ts : List Token) :
    sides? (ts.map φ) = (sides? ts).map fun r => (r.1, r.2.map φ) := by
  simp only [sides?, nextSide?_respell h]
  cases nextSide? ts with
  | none => rfl
  | some first =>
    simp only [Option.map_some, nextSide?_respell h]
    cases nextSide? first.2 with
    | none => rfl
    | some second =>
      simp only [Option.map_some]
      split <;> rfl

theorem corner?_respell (ts : List Token) :
    corner? (ts.map φ) = (corner? ts).map fun r => (r.1, r.2.map φ) := by
  have hto := TokenKind.congr_folded (TokenKind.isIdentNamed_folded "to") (headKind_respell h ts)
  have hblank := TokenKind.congr_folded TokenKind.isWhitespace_folded (headKind_respell h ts.tail)
  simp only [corner?, hto, ← List.map_tail, hblank, sides?_respell h]
  split
  · split
    · rw [Option.map_map, Option.map_map]
      rfl
    · rfl
  · rw [Option.map_map, Option.map_map]
    rfl

theorem line?_respell (ts : List Token) :
    line? (ts.map φ) = (line? ts).map fun r => (r.1, r.2.map φ) := by
  have hangle := TokenKind.congr_folded angle?_folded (headKind_respell h (skipTrivia ts))
  simp only [line?, skipTrivia_respell h, hangle]
  cases angle? (Token.headKind (skipTrivia ts)) with
  | some heading => simp only [← List.map_tail, Option.map_some]
  | none => exact corner?_respell h (skipTrivia ts)

theorem readHeading_respell (ts : List Token) :
    readHeading (ts.map φ) = ((readHeading ts).1, (readHeading ts).2.map φ) := by
  have hcomma (us : List Token) :
      (Token.headKind (us.map φ) == .comma) = (Token.headKind us == .comma) := by
    apply TokenKind.congr_folded (p := (· == TokenKind.comma)) _ (headKind_respell h us)
    intro k
    cases k <;> rfl
  rcases hline : line? ts with _ | ⟨heading, rest⟩
  · rw [readHeading, readHeading, line?_respell h, hline]
    rfl
  · have hline' := line?_respell h ts
    rw [hline] at hline'
    rw [readHeading_of_line? hline, readHeading_of_line? hline', skipTrivia_respell h, hcomma]
    split
    · rw [← List.map_tail]
    · rfl

/-! ## Color stops -/

theorem closing?_respell (depth : Nat) (ts : List Token) :
    closing? depth (ts.map φ) = (closing? depth ts).map (List.map φ) := by
  induction ts generalizing depth with
  | nil => rfl
  | cons t ts ih =>
    simp only [List.map_cons, closing?, TokenKind.congr_folded TokenKind.opens_folded (h.folded t),
      TokenKind.congr_folded TokenKind.closes_folded (h.folded t), ih]
    have hcons (run : Option (List Token)) : (run.map (List.map φ)).map (φ t :: ·) =
        (run.map (t :: ·)).map (List.map φ) := by cases run <;> rfl
    split
    · exact hcons _
    · split
      · cases depth with
        | zero => rfl
        | succ depth => exact hcons _
      · exact hcons _

theorem color?_respell (t : Token) (ts : List Token) :
    color? (φ t) (ts.map φ) = (color? t ts).map (List.map φ) := by
  rw [color?_eq, color?_eq, TokenKind.congr_folded opensColor?_folded (h.folded t),
    closing?_respell h]
  cases opensColor? t.kind with
  | none => rfl
  | some called =>
    cases called with
    | false => rfl
    | true =>
      simp only [Option.bind_some, if_pos, Option.map_map]
      rfl

theorem position?_respell (ts : List Token) :
    position? (ts.map φ) = (position? ts).map φ := by
  cases ts with
  | nil => rfl
  | cons t ts =>
    rw [List.map_cons, position?_cons, position?_cons,
      TokenKind.congr_folded isPosition_folded (h.folded t)]
    split <;> rfl

theorem stop?_respell (ts : List Token) :
    stop? (ts.map φ) = (stop? ts).map fun r => (r.1.mapText f, r.2) := by
  have hskip' := skipTrivia_respell h ts
  rcases hskip : skipTrivia ts with _ | ⟨t, more⟩
  · rw [hskip] at hskip'
    simp only [stop?, hskip', hskip, List.map_nil, Option.map_none]
  have hcolor' := color?_respell h t more
  rcases hcolor : color? t more with _ | color
  · rw [hcolor] at hcolor'
    simp only [stop?, hskip', hskip, List.map_cons, hcolor', hcolor, Option.map_none]
  rw [hskip, List.map_cons] at hskip'
  rw [hcolor, Option.map_some] at hcolor'
  rw [stop?_of_color hskip hcolor, stop?_of_color hskip' hcolor']
  simp only [List.length_map, ← List.map_cons, ← List.map_drop, skipTrivia_respell h,
    position?_respell h, Option.isSome_map, written_respell h]
  generalize skipTrivia ((t :: more).drop color.length) = behind
  have hbehind : (if (position? behind).isSome = true then (behind.map φ).tail
      else behind.map φ) =
        (if (position? behind).isSome = true then behind.tail else behind).map φ := by
    rw [← List.map_tail]
    split <;> rfl
  have hposition : ((position? behind).map φ).map (fun p => written [p]) =
      ((position? behind).map fun p => written [p]).map (GradientFallback.mapText f) := by
    cases position? behind with
    | none => rfl
    | some p => exact congrArg some (written_respell h [p])
  rw [hbehind, hposition, skipTrivia_respell h,
    TokenKind.congr_folded isLast?_folded (headKind_respell h _), List.length_map]
  cases isLast? (Token.headKind (skipTrivia _)) <;> rfl

theorem stopsFrom_respell (ts : List Token) (n : Nat) :
    stopsFrom n (ts.map φ) = (stopsFrom n ts).map (List.map (ColorStop.mapText f)) := by
  induction ts generalizing n with
  | nil => cases n <;> rfl
  | cons t ts ih =>
    cases n with
    | succ n => exact ih n
    | zero =>
      have hstop := stop?_respell h (t :: ts)
      rw [List.map_cons] at hstop ⊢
      rw [stopsFrom, stopsFrom, hstop]
      rcases stop? (t :: ts) with _ | ⟨stop, last, width⟩
      · rfl
      · cases last with
        | true => rfl
        | false => simp only [Option.map_some, ih, Option.map_map]; rfl

theorem ofTokens?_respell (ts : List Token) :
    ofTokens? (ts.map φ) = (ofTokens? ts).map (mapText f) := by
  have hskip' := skipTrivia_respell h ts
  rcases hskip : skipTrivia ts with _ | ⟨t, rest⟩
  · rw [hskip] at hskip'
    simp only [ofTokens?, hskip', hskip, List.map_nil, Option.map_none]
  rw [hskip, List.map_cons] at hskip'
  rw [ofTokens?_of_skip hskip, ofTokens?_of_skip hskip',
    TokenKind.congr_folded opensGradient_folded (h.folded t)]
  simp only [readHeading_respell h, stopsFrom_respell h]
  split
  · cases stopsFrom 0 (readHeading rest).2 with
    | none => rfl
    | some stops =>
      simp only [Option.map_some, Option.bind_some, List.length_map]
      split <;> rfl
  · rfl

end Respelling

end Gradient
end GradientFallback
