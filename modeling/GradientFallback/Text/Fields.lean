import GradientFallback.Text.Segment

/-! # Cutting and thinning texts -/
namespace GradientFallback

/-- Puts a character in front of the first text. -/
def consFirst (c : Char) : List (List Char) → List (List Char)
  | [] => [[c]]
  | p :: ps => (c :: p) :: ps

/-- The texts between the characters with `p`, empty ones too. -/
def cutAt (p : Char → Bool) : List Char → List (List Char)
  | [] => [[]]
  | c :: cs => if p c then [] :: cutAt p cs else consFirst c (cutAt p cs)

/-- The texts between the characters with `p` that are not empty. -/
def fieldsOf (p : Char → Bool) (cs : List Char) : List (List Char) :=
  (cutAt p cs).filter fun f => !f.isEmpty

/-- The text without the occurrences of `word`, found one after the other from the left. -/
def without (word : List Char) (cs : List Char) : List Char :=
  let step : Step Char (Option Char) := fun cs =>
    if word.isPrefixOf cs then some (none, word.length) else some (cs.head?, 1)
  (Piece.values (segment step cs)).filterMap id

end GradientFallback
