import GradientFallback.Token.Basic

/-! # Cutting token lists

A construct ends at the first token of certain kinds that stands outside all parentheses and
brackets opened since its start; braces do not nest here.  Whitespace and comments at the end of a
construct do not belong to what it says.
-/
namespace GradientFallback
namespace Token

/-- The nesting depth behind a token; a closing one without its counterpart is passed over. -/
def nest (depth : Nat) (k : TokenKind) : Nat :=
  if k.opens then depth + 1 else if k.closes then depth - 1 else depth

/-- Splits the tokens in front of the first one at depth zero with `stop`. -/
def spanUntil (stop : TokenKind → Bool) (depth : Nat) : List Token → List Token × List Token
  | [] => ([], [])
  | t :: ts =>
    if depth = 0 ∧ stop t.kind then ([], t :: ts)
    else
      let (run, rest) := spanUntil stop (nest depth t.kind) ts
      (t :: run, rest)

/-- Nothing is lost at the cut. -/
theorem spanUntil_append (stop : TokenKind → Bool) (depth : Nat) (ts : List Token) :
    (spanUntil stop depth ts).1 ++ (spanUntil stop depth ts).2 = ts := by
  induction ts generalizing depth with
  | nil => rfl
  | cons t ts ih =>
    rw [spanUntil]
    split
    · rfl
    · simpa using ih (nest depth t.kind)

end Token
end GradientFallback
