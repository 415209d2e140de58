/-! # Blank characters and trimming

Blank is what has the Unicode property White_Space.  Trimming removes blanks from the ends of a
text; the part cut off at the end can be had as well, so nothing is lost.
-/
namespace GradientFallback

/-- The Unicode property White_Space. -/
def isBlank (c : Char) : Bool :=
  let n := c.toNat
  (0x09 ≤ n && n ≤ 0x0D) || n == 0x20 || n == 0x85 || n == 0xA0 || n == 0x1680 ||
    (0x2000 ≤ n && n ≤ 0x200A) || n == 0x2028 || n == 0x2029 || n == 0x202F || n == 0x205F ||
    n == 0x3000

/-- The list without the longest run of elements with `p` at its end. -/
def dropTrailing {α : Type} (p : α → Bool) (xs : List α) : List α :=
  xs.foldr (fun x kept => if kept.isEmpty && p x then [] else x :: kept) []

/-- The longest run of elements with `p` at the end of the list. -/
def trailing {α : Type} (p : α → Bool) (xs : List α) : List α :=
  xs.drop (dropTrailing p xs).length

@[simp] theorem dropTrailing_nil {α : Type} (p : α → Bool) : dropTrailing p [] = [] := rfl

theorem dropTrailing_cons {α : Type} (p : α → Bool) (x : α) (xs : List α) :
    dropTrailing p (x :: xs) =
      if (dropTrailing p xs).isEmpty && p x then [] else x :: dropTrailing p xs := rfl

/-- Nothing is lost by cutting off the end. -/
@[simp] theorem dropTrailing_append_trailing {α : Type} (p : α → Bool) (xs : List α) :
    dropTrailing p xs ++ trailing p xs = xs := by
  induction xs with
  | nil => rfl
  | cons x xs ih =>
    unfold trailing at ih ⊢
    rw [dropTrailing_cons]
    split
    · rfl
    · simpa using ih

def trimStart (cs : List Char) : List Char := cs.dropWhile isBlank

def trimEnd (cs : List Char) : List Char := dropTrailing isBlank cs

def trim (cs : List Char) : List Char := trimEnd (trimStart cs)

end GradientFallback
