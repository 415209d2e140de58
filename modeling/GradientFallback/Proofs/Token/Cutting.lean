import GradientFallback.Token.Span

/-! # What a cut of a token list says

A cut at the first stopping token outside all parentheses is the only way to write the list as a run
in which nothing stops and a rest that is empty or starts with a token that stops.
-/
namespace GradientFallback
namespace Token

def AllBlank (ts : List Token) : Prop := ∀ t ∈ ts, t.isWhitespace = true

def AllTrivia (ts : List Token) : Prop := ∀ t ∈ ts, t.isTrivia = true

/-- The nesting depth behind the tokens. -/
def depthBehind (depth : Nat) (ts : List Token) : Nat := ts.foldl (fun d t => nest d t.kind) depth

/-- No token at depth zero has `stop`. -/
def Passes (stop : TokenKind → Bool) : Nat → List Token → Prop
  | _, [] => True
  | depth, t :: ts => (depth = 0 → stop t.kind = false) ∧ Passes stop (nest depth t.kind) ts

@[simp] theorem depthBehind_nil (depth : Nat) : depthBehind depth [] = depth := rfl

@[simp] theorem depthBehind_cons (depth : Nat) (t : Token) (ts : List Token) :
    depthBehind depth (t :: ts) = depthBehind (nest depth t.kind) ts := rfl

@[simp] theorem depthBehind_append (depth : Nat) (ts us : List Token) :
    depthBehind depth (ts ++ us) = depthBehind (depthBehind depth ts) us := List.foldl_append

theorem allTrivia_nil : AllTrivia [] := fun _ h => absurd h List.not_mem_nil

theorem kind_of_isWhitespace {t : Token} (h : t.isWhitespace = true) : t.kind = .whitespace := by
  unfold isWhitespace TokenKind.isWhitespace at h
  split at h
  · next hkind => exact hkind
  · exact absurd h Bool.false_ne_true

theorem isTrivia_of_isWhitespace {t : Token} (h : t.isWhitespace = true) : t.isTrivia = true := by
  rw [isTrivia, kind_of_isWhitespace h]
  rfl

/-- All tokens have `p`, or a first one has not. -/
theorem all_or_first (p : Token → Bool) (ts : List Token) : (∀ t ∈ ts, p t = true) ∨
    ∃ front t more, (∀ u ∈ front, p u = true) ∧ p t = false ∧ ts = front ++ t :: more := by
  induction ts with
  | nil => exact .inl nofun
  | cons t ts ih =>
    rcases ht : p t with _ | _
    · exact .inr ⟨[], t, ts, nofun, ht, rfl⟩
    · rcases ih with hall | ⟨front, u, more, hfront, hu, rfl⟩
      · exact .inl (List.forall_mem_cons.2 ⟨ht, hall⟩)
      · exact .inr ⟨t :: front, u, more, List.forall_mem_cons.2 ⟨ht, hfront⟩, hu, rfl⟩

theorem AllBlank.allTrivia {ts : List Token} (h : AllBlank ts) : AllTrivia ts :=
  fun t ht => isTrivia_of_isWhitespace (h t ht)

theorem nest_of_isTrivia {t : Token} (h : t.isTrivia = true) (depth : Nat) :
    nest depth t.kind = depth := by
  unfold isTrivia TokenKind.isTrivia at h
  split at h <;> simp_all [nest, TokenKind.opens, TokenKind.closes]

/-- Behind tokens that neither open nor end anything the depth is as it was. -/
theorem depthBehind_level {ts : List Token} (h : ∀ t ∈ ts, ∀ depth, nest depth t.kind = depth)
    (depth : Nat) : depthBehind depth ts = depth := by
  induction ts with
  | nil => rfl
  | cons t ts ih =>
    rw [depthBehind_cons, h t List.mem_cons_self]
    exact ih fun u hu => h u (List.mem_cons_of_mem t hu)

theorem depthBehind_trivia {ts : List Token} (h : AllTrivia ts) (depth : Nat) :
    depthBehind depth ts = depth :=
  depthBehind_level (fun t ht => nest_of_isTrivia (h t ht)) depth

section Passes

variable {stop : TokenKind → Bool}

@[simp] theorem passes_nil (depth : Nat) : Passes stop depth [] := trivial

theorem passes_cons {depth : Nat} {t : Token} {ts : List Token} :
    Passes stop depth (t :: ts) ↔
      (depth = 0 → stop t.kind = false) ∧ Passes stop (nest depth t.kind) ts := Iff.rfl

theorem passes_append {depth : Nat} {ts us : List Token} :
    Passes stop depth (ts ++ us) ↔
      Passes stop depth ts ∧ Passes stop (depthBehind depth ts) us := by
  induction ts generalizing depth with
  | nil => simp
  | cons t ts ih => simp only [List.cons_append, passes_cons, ih, depthBehind_cons, and_assoc]

theorem Passes.mono {stop' : TokenKind → Bool} (h : ∀ k, stop' k = true → stop k = true) {depth : Nat}
    {ts : List Token} (hp : Passes stop depth ts) : Passes stop' depth ts := by
  induction ts generalizing depth with
  | nil => trivial
  | cons t ts ih =>
    refine ⟨fun hd => ?_, ih hp.2⟩
    by_cases hs : stop' t.kind = true
    · exact absurd (h _ hs) (by rw [hp.1 hd]; exact Bool.false_ne_true)
    · exact Bool.eq_false_iff.2 hs

/-- Tokens at which nothing stops are passed at any depth. -/
theorem passes_of_forall {ts : List Token} (h : ∀ t ∈ ts, stop t.kind = false) (depth : Nat) :
    Passes stop depth ts := by
  induction ts generalizing depth with
  | nil => trivial
  | cons t ts ih =>
    exact ⟨fun _ => h t List.mem_cons_self, ih (fun u hu => h u (List.mem_cons_of_mem t hu)) _⟩

theorem passes_trivia {ts : List Token} (hstop : ∀ k : TokenKind, k.isTrivia = true → stop k = false)
    (h : AllTrivia ts) (depth : Nat) : Passes stop depth ts :=
  passes_of_forall (fun t ht => hstop _ (h t ht)) depth

/-- A run in which nothing stops is what a cut in front of a stopping token takes. -/
theorem spanUntil_of_passes {depth : Nat} {run rest : List Token} (h : Passes stop depth run)
    (hrest : ∀ t ∈ rest.head?, depthBehind depth run = 0 ∧ stop t.kind = true) :
    spanUntil stop depth (run ++ rest) = (run, rest) := by
  induction run generalizing depth with
  | nil =>
    cases rest with
    | nil => rfl
    | cons t rest =>
      have ht : depth = 0 ∧ stop t.kind = true := hrest t rfl
      rw [List.nil_append, spanUntil, if_pos ht]
  | cons t run ih =>
    have hcut : ¬(depth = 0 ∧ stop t.kind = true) := by
      rintro ⟨hd, hs⟩
      rw [h.1 hd] at hs
      exact Bool.false_ne_true hs
    rw [List.cons_append, spanUntil, if_neg hcut, ih h.2 hrest]

theorem spanUntil_passes (stop : TokenKind → Bool) (depth : Nat) (ts : List Token) :
    Passes stop depth (spanUntil stop depth ts).1 := by
  induction ts generalizing depth with
  | nil => trivial
  | cons t ts ih =>
    rw [spanUntil]
    split
    · trivial
    · next hcut =>
      refine ⟨fun hd => ?_, ih _⟩
      exact Bool.eq_false_iff.2 fun hs => hcut ⟨hd, hs⟩

theorem spanUntil_stops (stop : TokenKind → Bool) (depth : Nat) (ts : List Token) :
    ∀ t ∈ (spanUntil stop depth ts).2.head?,
      depthBehind depth (spanUntil stop depth ts).1 = 0 ∧ stop t.kind = true := by
  induction ts generalizing depth with
  | nil => exact nofun
  | cons t ts ih =>
    rw [spanUntil]
    split
    · next hcut =>
      intro u hu
      cases hu
      exact hcut
    · exact ih _

/-- Every list is cut in one place. -/
theorem exists_cut (stop : TokenKind → Bool) (depth : Nat) (ts : List Token) :
    ∃ run rest, ts = run ++ rest ∧ Passes stop depth run ∧
      ∀ t ∈ rest.head?, depthBehind depth run = 0 ∧ stop t.kind = true :=
  ⟨_, _, (spanUntil_append stop depth ts).symm, spanUntil_passes stop depth ts,
    spanUntil_stops stop depth ts⟩

end Passes

end Token
end GradientFallback
