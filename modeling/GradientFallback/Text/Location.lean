/-! # Places in a text

A place is a line and a column, both counted from one, and the number of characters before it.
Passing a line feed goes to the first column of the next line; any other character moves one
column to the right.
-/
namespace GradientFallback

structure Location where
  line : Nat
  column : Nat
  offset : Nat
  deriving DecidableEq, Inhabited

namespace Location

/-- The place of the first character of a text. -/
def origin : Location := ⟨1, 1, 0⟩

/-- The place just after the character `c` that stands at `l`. -/
def next (l : Location) (c : Char) : Location :=
  if c = '\n' then ⟨l.line + 1, 1, l.offset + 1⟩ else ⟨l.line, l.column + 1, l.offset + 1⟩

/-- The place just after the text `cs` that starts at `l`. -/
def advance (l : Location) (cs : List Char) : Location := cs.foldl next l

@[simp] theorem advance_nil (l : Location) : l.advance [] = l := rfl

@[simp] theorem advance_cons (l : Location) (c : Char) (cs : List Char) :
    l.advance (c :: cs) = (l.next c).advance cs := rfl

theorem advance_append (l : Location) (cs ds : List Char) :
    l.advance (cs ++ ds) = (l.advance cs).advance ds := List.foldl_append

@[simp] theorem next_offset (l : Location) (c : Char) : (l.next c).offset = l.offset + 1 := by
  unfold next
  split <;> rfl

/-- Every character counts once. -/
@[simp] theorem advance_offset (l : Location) (cs : List Char) :
    (l.advance cs).offset = l.offset + cs.length := by
  induction cs generalizing l with
  | nil => rfl
  | cons c cs ih => simp [ih, Nat.add_assoc, Nat.add_comm 1]

/-- The place `l` of a text, counted where that text starts at `start`.  Columns are counted on from
the start in the first line only. -/
def within (start l : Location) : Location :=
  ⟨start.line + l.line - 1, if l.line = 1 then start.column + l.column - 1 else l.column,
    start.offset + l.offset⟩

/-- Lines and columns are counted from one. -/
structure Counted (l : Location) : Prop where
  line : 1 ≤ l.line
  column : 1 ≤ l.column

theorem Counted.next {l : Location} (h : l.Counted) (c : Char) : (l.next c).Counted := by
  unfold Location.next
  split
  · exact ⟨Nat.le_add_left 1 l.line, Nat.le_refl 1⟩
  · exact ⟨h.line, Nat.le_add_left 1 l.column⟩

theorem next_within {l : Location} (h : l.Counted) (start : Location) (c : Char) :
    (start.within l).next c = start.within (l.next c) := by
  have hline := h.line
  have hcolumn := h.column
  unfold next within
  by_cases hc : c = '\n'
  · have hlater : l.line + 1 ≠ 1 := by omega
    simp only [hc, if_true, hlater, if_false, Location.mk.injEq, true_and]
    omega
  · simp only [hc, if_false, Location.mk.injEq, true_and]
    constructor
    · split <;> omega
    · omega

theorem advance_within {l : Location} (h : l.Counted) (start : Location) (cs : List Char) :
    (start.within l).advance cs = start.within (l.advance cs) := by
  induction cs generalizing l with
  | nil => rfl
  | cons c cs ih => rw [advance_cons, advance_cons, next_within h, ih (h.next c)]

theorem within_origin (start : Location) : start.within origin = start := by
  simp [within, origin]

/-- Places counted in a text of its own are those counted from its start, moved there. -/
theorem within_advance_origin (start : Location) (cs : List Char) :
    start.within (origin.advance cs) = start.advance cs := by
  have horigin : origin.Counted := ⟨Nat.le_refl 1, Nat.le_refl 1⟩
  rw [← advance_within horigin, within_origin]

/-- Line and column, as in `3:14`. -/
def text (l : Location) : String := toString l.line ++ ":" ++ toString l.column

/-- Line and column in brackets, as in `(3:14)`. -/
def bracketed (l : Location) : String := "(" ++ l.text ++ ")"

end Location
end GradientFallback
