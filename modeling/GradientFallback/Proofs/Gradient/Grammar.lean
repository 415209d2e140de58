import GradientFallback.Gradient.Parser
import GradientFallback.Proofs.Token.Cutting

/-! # The grammar of gradients

A gradient is a function of an optional line, which says where the gradient runs to, and of two or
more color stops.  Each construct is given by the tokens it is written with; a line is there
whenever the tokens can be read as one with a comma behind it.
-/
namespace GradientFallback
namespace Gradient

/-- Tokens in which everything that is opened is closed. -/
inductive Balanced : List Token → Prop
  | nil : Balanced []
  | plain {t : Token} {ts : List Token} (opens : t.kind.opens = false)
      (closes : t.kind.closes = false) (rest : Balanced ts) : Balanced (t :: ts)
  | group {t close : Token} {inner ts : List Token} (opens : t.kind.opens = true)
      (inside : Balanced inner) (closes : close.kind.closes = true) (rest : Balanced ts) :
      Balanced (t :: inner ++ close :: ts)

/-- One side, or two on different axes with trivia between them. -/
inductive SidesAt : List Token → List Side → Prop
  | one {t : Token} {s : Side} (side : side? t.kind = some s) : SidesAt [t] [s]
  | two {t t' : Token} {s s' : Side} {gap : List Token} (side : side? t.kind = some s)
      (trivia : Token.AllTrivia gap) (side' : side? t'.kind = some s') (axes : s'.axis ≠ s.axis) :
      SidesAt (t :: gap ++ [t']) [s, s']

/-- A gradient line. -/
inductive LineAt : List Token → Heading Float → Prop
  /-- A bare zero is an angle of zero degrees. -/
  | zero {t : Token} {value : Float} (kind : t.kind = .number value) (zero : (value == 0) = true) :
      LineAt [t] (.angle 0 .deg)
  | angle {t : Token} {value : Float} {name : String} {u : AngleUnit}
      (kind : t.kind = .dimension value name) (unit : AngleUnit.ofName? name = some u) :
      LineAt [t] (.angle value u)
  | sides {ts : List Token} {sides : List Side} (at_sides : SidesAt ts sides) :
      LineAt ts (.corner sides false)
  /-- Whitespace stands at once behind the word `to`. -/
  | toSides {t blank : Token} {gap ts : List Token} {sides : List Side}
      (word : t.kind.isIdentNamed "to" = true) (whitespace : blank.isWhitespace = true)
      (trivia : Token.AllTrivia gap) (at_sides : SidesAt ts sides) :
      LineAt (t :: blank :: gap ++ ts) (.corner sides true)

/-- A color: one token, or a function up to what closes it. -/
inductive ColorAt : List Token → Prop
  | hash {t : Token} {name : String} (kind : t.kind = .hash name) : ColorAt [t]
  | idHash {t : Token} {name : String} (kind : t.kind = .idHash name) : ColorAt [t]
  | ident {t : Token} {name : String} (kind : t.kind = .ident name) : ColorAt [t]
  | function {t close : Token} {name : String} {inner : List Token}
      (kind : t.kind = .function name) (isColor : isColorFunction name = true)
      (inside : Balanced inner) (closes : close.kind.closes = true) :
      ColorAt (t :: inner ++ [close])

/-- The kinds that write a position. -/
inductive IsPosition : TokenKind → Prop
  | number (value : Float) : IsPosition (.number value)
  | percentage (value : Float) : IsPosition (.percentage value)
  | dimension (value : Float) (unit : String) : IsPosition (.dimension value unit)

/-- A color stop, with trivia in front of it. -/
inductive StopAt : List Token → ColorStop → Prop
  | color {gap color : List Token} (trivia : Token.AllTrivia gap) (at_color : ColorAt color) :
      StopAt (gap ++ color) ⟨written color, none⟩
  | placed {gap color gap' : List Token} {t : Token} (trivia : Token.AllTrivia gap)
      (at_color : ColorAt color) (trivia' : Token.AllTrivia gap') (position : IsPosition t.kind) :
      StopAt (gap ++ color ++ gap' ++ [t]) ⟨written color, some (written [t])⟩

/-- Color stops with commas between them, up to the closing parenthesis. -/
inductive StopsAt : List Token → List ColorStop → Prop
  | last {ts gap : List Token} {close : Token} {s : ColorStop} (stop : StopAt ts s)
      (trivia : Token.AllTrivia gap) (kind : close.kind = .rightParen) :
      StopsAt (ts ++ gap ++ [close]) [s]
  | more {ts gap rest : List Token} {comma : Token} {s : ColorStop} {others : List ColorStop}
      (stop : StopAt ts s) (trivia : Token.AllTrivia gap) (kind : comma.kind = .comma)
      (stops : StopsAt rest others) : StopsAt (ts ++ gap ++ comma :: rest) (s :: others)

/-- The tokens start with a gradient line and its comma, with trivia in front of both. -/
inductive HeadedBy : List Token → Heading Float → List Token → Prop
  | line {gap line gap' behind : List Token} {comma : Token} {h : Heading Float}
      (trivia : Token.AllTrivia gap) (at_line : LineAt line h) (trivia' : Token.AllTrivia gap')
      (kind : comma.kind = .comma) : HeadedBy (gap ++ line ++ gap' ++ comma :: behind) h behind

/-- The tokens start with a gradient.  A line is taken wherever there is one. -/
inductive GradientAt : List Token → Gradient Float → Prop
  | headed {gap ts stops rest : List Token} {t : Token} {name : String} {h : Heading Float}
      {others : List ColorStop} (trivia : Token.AllTrivia gap) (kind : t.kind = .function name)
      (isGradient : sameLetters name "linear-gradient" = true)
      (heading : HeadedBy ts h (stops ++ rest)) (at_stops : StopsAt stops others)
      (several : 2 ≤ others.length) : GradientAt (gap ++ t :: ts) ⟨h, others⟩
  | plain {gap stops rest : List Token} {t : Token} {name : String} {others : List ColorStop}
      (trivia : Token.AllTrivia gap) (kind : t.kind = .function name)
      (isGradient : sameLetters name "linear-gradient" = true)
      (no_heading : ∀ h behind, ¬HeadedBy (stops ++ rest) h behind)
      (at_stops : StopsAt stops others) (several : 2 ≤ others.length) :
      GradientAt (gap ++ t :: (stops ++ rest)) ⟨.none, others⟩

end Gradient
end GradientFallback
