import GradientFallback.Gradient.Basic
import GradientFallback.Token.Lexer
import GradientFallback.Token.Span

/-! # Reading gradients

A gradient is read from the tokens at the front of a text; what follows its closing parenthesis is
not looked at.  A heading counts only if a comma follows it.  The colors and positions of the stops
are kept as they are written.
-/
namespace GradientFallback
namespace Gradient

def skipTrivia (ts : List Token) : List Token := ts.dropWhile Token.isTrivia

/-- The heading that a single token writes: an angle, or a bare zero. -/
def angle? : TokenKind → Option (Heading Float)
  | .number value => if value == 0 then some (.angle 0 .deg) else none
  | .dimension value unit => (AngleUnit.ofName? unit).map fun u => .angle value u
  | _ => none

def side? : TokenKind → Option Side
  | .ident name => Side.ofName? name
  | _ => none

/-- The side at the front of the tokens behind trivia, and what follows it. -/
def nextSide? (ts : List Token) : Option (Side × List Token) :=
  match skipTrivia ts with
  | t :: rest => (side? t.kind).map fun s => (s, rest)
  | [] => none

/-- One side, or two on different axes, and what follows them. -/
def sides? (ts : List Token) : Option (List Side × List Token) :=
  match nextSide? ts with
  | none => none
  | some (s, rest) =>
    match nextSide? rest with
    | none => some ([s], rest)
    | some (s', rest') => if s'.axis = s.axis then none else some ([s, s'], rest')

/-- A heading of sides, and what follows it.  Whitespace stands at once behind the word `to`. -/
def corner? (ts : List Token) : Option (Heading Float × List Token) :=
  if (Token.headKind ts).isIdentNamed "to" then
    if (Token.headKind ts.tail).isWhitespace then
      (sides? ts.tail).map fun r => (.corner r.1 true, r.2)
    else none
  else (sides? ts).map fun r => (.corner r.1 false, r.2)

/-- A heading behind trivia, and what follows it. -/
def line? (ts : List Token) : Option (Heading Float × List Token) :=
  match angle? (Token.headKind (skipTrivia ts)) with
  | some h => some (h, (skipTrivia ts).tail)
  | none => corner? (skipTrivia ts)

/-- The heading and the tokens behind its comma, if there is a heading with a comma. -/
def readHeading (ts : List Token) : Heading Float × List Token :=
  match line? ts with
  | none => (.none, ts)
  | some (h, rest) =>
    match skipTrivia rest with
    | ⟨.comma, _, _⟩ :: behind => (h, behind)
    | _ => (.none, ts)

/-- The tokens up to the one that closes what has been opened. -/
def closing? (depth : Nat) : List Token → Option (List Token)
  | [] => none
  | t :: ts =>
    if t.kind.opens then (closing? (depth + 1) ts).map (t :: ·)
    else if t.kind.closes then
      match depth with
      | 0 => some [t]
      | d + 1 => (closing? d ts).map (t :: ·)
    else (closing? depth ts).map (t :: ·)

def isColorFunction (name : String) : Bool :=
  ["rgb", "rgba", "hsl", "hsla"].any fun f => sameLetters f name

/-- The tokens of a color that starts with the token `t`. -/
def color? (t : Token) (ts : List Token) : Option (List Token) :=
  match t.kind with
  | .hash _ => some [t]
  | .idHash _ => some [t]
  | .ident _ => some [t]
  | .function name => if isColorFunction name then (closing? 0 ts).map (t :: ·) else none
  | _ => none

/-- The token of a position at the front of the tokens. -/
def position? : List Token → Option Token
  | t :: _ =>
    match t.kind with
    | .number _ => some t
    | .percentage _ => some t
    | .dimension _ _ => some t
    | _ => none
  | [] => none

def written (ts : List Token) : String := String.ofList (Token.source ts)

/-- A color stop with the comma or the closing parenthesis behind it: the stop, whether it is the
last one, and the number of tokens. -/
def stop? (ts : List Token) : Option (ColorStop × Bool × Nat) :=
  match skipTrivia ts with
  | [] => none
  | t :: more =>
    match color? t more with
    | none => none
    | some color =>
      let behindColor := skipTrivia ((t :: more).drop color.length)
      let position := position? behindColor
      let behind := skipTrivia (if position.isSome then behindColor.tail else behindColor)
      let stop : ColorStop := ⟨written color, position.map fun p => written [p]⟩
      match Token.headKind behind with
      | .comma => some (stop, false, ts.length + 1 - behind.length)
      | .rightParen => some (stop, true, ts.length + 1 - behind.length)
      | _ => none

/-- Reads color stops after passing `pending` tokens, up to the last one. -/
def stopsFrom : Nat → List Token → Option (List ColorStop)
  | _, [] => none
  | pending + 1, _ :: ts => stopsFrom pending ts
  | 0, t :: ts =>
    match stop? (t :: ts) with
    | none => none
    | some (stop, true, _) => some [stop]
    | some (stop, false, width) => (stopsFrom (width - 1) ts).map (stop :: ·)

/-- The gradient at the front of the tokens. -/
def ofTokens? (ts : List Token) : Option (Gradient Float) :=
  match skipTrivia ts with
  | [] => none
  | t :: rest =>
    match t.kind with
    | .function name =>
      if sameLetters name "linear-gradient" then
        let (h, behind) := readHeading rest
        match stopsFrom 0 behind with
        | some stops => if stops.length < 2 then none else some ⟨h, stops⟩
        | none => none
      else none
    | _ => none

/-- The gradient at the front of a text. -/
def parse? (text : String) : Option (Gradient Float) :=
  ofTokens? (Token.lex .origin (unifyLineEnds text.toList))

end Gradient
end GradientFallback
