import GradientFallback.Proofs.Token.Quiet
import GradientFallback.Proofs.Value.Splitting

/-! # Crossing a piece of a value

Where the cut of a value at its commas stands behind a piece of the value is told by a state.  A
piece is crossed from one state to another if no comma in it separates parts; escapes, names and
numbers are crossed without a change of the state.
-/
namespace GradientFallback

namespace Comma

theorem consFirst_eq_modifyHead (c : Char) {ps : List (List Char)} (h : ps ≠ []) :
    consFirst c ps = ps.modifyHead (c :: ·) := by
  cases ps with
  | nil => exact absurd rfl h
  | cons p ps => rfl

/-- Behind the first `n` characters, none of which separates, the cut goes on from the state `s'`. -/
def Crosses (s s' : State) (n : Nat) (cs : List Char) : Prop :=
  cutFrom s cs = (cutFrom s' (cs.drop n)).modifyHead (cs.take n ++ ·)

/-- The character leaves the state as it is and does not separate. -/
def State.Idle (s : State) (c : Char) : Prop := s.next c = s ∧ s.separates c = false

/-- The state is not behind a backslash, and quotes are quotes. -/
structure State.Calm (s : State) : Prop where
  escaped : s.escaped = false
  quote : ∀ q ∈ s.quote, q = '"' ∨ q = '\''

/-- The characters that a cut looks at. -/
def signs : List Char := ['\\', ',', '(', ')', '"', '\'']

namespace Crosses

variable {s s' s'' : State} {cs : List Char}

theorem refl (s : State) (cs : List Char) : Crosses s s 0 cs := by
  rw [Crosses, List.drop_zero, List.take_zero]
  cases cutFrom s cs <;> rfl

theorem trans {m n : Nat} (h : Crosses s s' m cs) (h' : Crosses s' s'' n (cs.drop m)) :
    Crosses s s'' (m + n) cs := by
  rw [Crosses] at h h' ⊢
  rw [h, h', List.modifyHead_modifyHead, List.drop_drop, List.take_add]
  congr 1
  funext p
  exact (List.append_assoc _ _ p).symm

theorem one {c : Char} (hnext : s.next c = s') (hseparates : s.separates c = false)
    (cs : List Char) : Crosses s s' 1 (c :: cs) := by
  rw [Crosses, cutFrom, if_neg (Bool.eq_false_iff.1 hseparates), hnext]
  exact consFirst_eq_modifyHead c (cutFrom_ne_nil _ cs)

/-- At the end of the text the state does not count. -/
theorem at_end {n : Nat} (h : Crosses s s' n cs) (hend : cs.drop n = []) (s'' : State) :
    Crosses s s'' n cs := by
  rw [Crosses, hend] at h ⊢
  exact h

theorem of_idle {u : List Char} (hfront : u <+: cs) (hu : ∀ c ∈ u, s.Idle c) :
    Crosses s s u.length cs := by
  induction u generalizing cs with
  | nil => exact refl s cs
  | cons c u ih =>
    obtain ⟨x, rfl⟩ := hfront
    obtain ⟨hnext, hseparates⟩ := hu c List.mem_cons_self
    rw [List.length_cons, Nat.add_comm]
    exact (one hnext hseparates (u ++ x)).trans (ih (List.prefix_append u x) fun d hd => hu d (List.mem_cons_of_mem c hd))

theorem one_idle {c : Char} (h : s.Idle c) (cs : List Char) : Crosses s s 1 (c :: cs) :=
  of_idle (u := [c]) ⟨cs, rfl⟩ (List.forall_mem_singleton.2 h)

end Crosses

/-- Behind a backslash every character leads back. -/
theorem State.Calm.next_escaped {s : State} (h : s.Calm) (c : Char) :
    ({ s with escaped := true } : State).next c = s := by
  change { s with escaped := false } = s
  rw [← h.escaped]

theorem State.Calm.next_backslash {s : State} (h : s.Calm) :
    s.next '\\' = { s with escaped := true } ∧ s.separates '\\' = false := by
  simp [State.next, State.separates, h.escaped]

/-- A character that a cut does not look at is idle. -/
theorem State.Calm.idle {s : State} (h : s.Calm) {c : Char} (hc : c ∉ signs) : s.Idle c := by
  simp only [signs, List.mem_cons, List.not_mem_nil, not_or, or_false] at hc
  obtain ⟨hslash, hcomma, hopen, hclose, hdouble, hsingle⟩ := hc
  refine ⟨?_, by simp [State.separates, hcomma]⟩
  rcases hquote : s.quote with _ | q
  · simp [State.next, h.escaped, hquote, hslash, hdouble, hsingle, hopen, hclose]
  · have hq : c ≠ q := by
      rintro rfl
      rcases h.quote c hquote with rfl | rfl
      · exact hdouble rfl
      · exact hsingle rfl
    simp [State.next, h.escaped, hquote, hslash, hq]

/-- The characters of a class without signs are idle. -/
theorem State.Calm.idle_of_class {s : State} (h : s.Calm) {p : Char → Bool}
    (hp : signs.any p = false) {c : Char} (hc : p c = true) : s.Idle c :=
  h.idle fun hmem => List.any_eq_false.1 hp c hmem hc

/-! ## Escapes and names -/

section Calm

variable {s : State} {cs : List Char}

/-- A backslash and the character behind it. -/
theorem crosses_escaped (h : s.Calm) (c : Char) (cs : List Char) :
    Crosses s s 2 ('\\' :: c :: cs) := by
  obtain ⟨hnext, hseparates⟩ := h.next_backslash
  have hbehind : Crosses { s with escaped := true } s 1 (c :: cs) :=
    .one (h.next_escaped c) (by simp [State.separates]) cs
  exact (Crosses.one hnext hseparates (c :: cs)).trans hbehind

/-- A backslash that escapes nothing stands at the end or in front of a line end, which is idle. -/
theorem crosses_backslash (h : s.Calm) (hnone : Scan.escape? ('\\' :: cs) = none) :
    Crosses s s 1 ('\\' :: cs) := by
  obtain ⟨hnext, hseparates⟩ := h.next_backslash
  have hslash := Crosses.one hnext hseparates cs
  cases cs with
  | nil => exact hslash.at_end rfl s
  | cons c cs =>
    have hline : c = '\n' := by
      by_contra hc
      rw [Scan.escape?_backslash, if_neg hc] at hnone
      split at hnone <;> exact absurd hnone nofun
    subst hline
    have hescaped : cutFrom { s with escaped := true } ('\n' :: cs) = cutFrom s ('\n' :: cs) := by
      have hidle : s.Idle '\n' := h.idle (by decide)
      rw [cutFrom, cutFrom, hidle.1, hidle.2, h.next_escaped]
      simp [State.separates]
    rw [Crosses] at hslash ⊢
    exact hslash.trans (congrArg _ hescaped)

theorem mem_hexPart {c : Char} (hc : c ∈ Scan.hexPart cs) :
    (isHexDigit c || isBlank c) = true := by
  rw [Scan.hexPart, Scan.andThen, List.mem_append] at hc
  rw [Bool.or_eq_true]
  exact hc.imp List.mem_takeWhile_imp List.mem_takeWhile_imp

theorem crosses_escape (h : s.Calm) {c : Char} {n : Nat} (hread : Scan.escape? cs = some (c, n)) :
    Crosses s s n cs := by
  unfold Scan.escape? at hread
  split at hread
  · next d ds =>
    split at hread
    · exact absurd hread nofun
    split at hread
    · next hhex =>
      have hwidth := Scan.hexEscape_snd (d :: ds)
      rw [Option.some.inj hread] at hwidth
      dsimp only at hwidth
      have hne : Scan.hexPart (d :: ds) ≠ [] := by simp [Scan.hexPart, Scan.andThen, hhex]
      obtain ⟨more, hmore, hfront⟩ :=
        (List.prefix_cons_iff.1 (Scan.local_hexPart.isPrefix (d :: ds))).resolve_left hne
      have hidle : ∀ e ∈ more, s.Idle e := fun e he =>
        h.idle_of_class (p := fun c => isHexDigit c || isBlank c) (by decide)
          (mem_hexPart (hmore ▸ List.mem_cons_of_mem d he))
      obtain rfl : n = 2 + more.length := by
        rw [hwidth, hmore, List.length_cons]
        omega
      exact (crosses_escaped h d ds).trans (.of_idle hfront hidle)
    · cases hread
      exact crosses_escaped h _ ds
  · exact absurd hread nofun

/-- An escape, or a character that is a lone backslash or idle. -/
theorem crosses_escapeOr (h : s.Calm) {p : Char → Bool} {c : Char} {n : Nat}
    (hread : Scan.escapeOr p cs = some (c, n))
    (hp : c ∈ cs.take n → p c = true → c = '\\' ∨ s.Idle c) : Crosses s s n cs := by
  unfold Scan.escapeOr at hread
  split at hread
  · next hpiece =>
    cases hread
    exact crosses_escape h hpiece
  · next hnone =>
    split at hread
    · next d ds =>
      split at hread
      · next hd =>
        cases hread
        rcases hp List.mem_cons_self hd with rfl | hidle
        · exact crosses_backslash h hnone
        · exact .one_idle hidle ds
      · exact absurd hread nofun
    · exact absurd hread nofun

/-- Pieces that are crossed one by one are crossed together. -/
theorem crosses_segment {α : Type} {step : Step Char α} {P : Char → Prop}
    (hstep : ∀ cs a n, step cs = some (a, n) → (∀ c ∈ cs.take n, P c) →
      n ≤ cs.length ∧ Crosses s s n cs)
    (hcs : ∀ c ∈ cs.take (Piece.width (segment step cs)), P c) :
    Crosses s s (Piece.width (segment step cs)) cs := by
  rw [Scan.take_width_segment] at hcs
  induction cs using segment_induct step with
  | ends cs hseg =>
    rw [hseg]
    exact .refl s cs
  | piece cs a n _ _ hread hseg ih =>
    rw [hseg, Piece.covered_cons, List.forall_mem_append] at hcs
    obtain ⟨hle, hfirst⟩ := hstep cs a n hread hcs.1
    rw [hseg, Piece.width_cons, List.length_take, Nat.min_eq_left hle]
    exact hfirst.trans (ih hcs.2)

theorem crosses_escapes (h : s.Calm) {p : Char → Bool}
    (hp : ∀ c, p c = true → c = '\\' ∨ s.Idle c) (cs : List Char) :
    Crosses s s (Piece.width (segment (Scan.escapeOr p) cs)) cs :=
  crosses_segment (P := fun _ => True)
    (fun _ c _ hread _ => ⟨(Scan.escapeOr_width hread).2, crosses_escapeOr h hread fun _ => hp c⟩)
    fun _ _ => trivial

theorem crosses_fixed (h : s.Calm) {u : List Char} (hfront : u <+: cs)
    (hu : (u.any fun c => c ∈ signs) = false) : Crosses s s u.length cs :=
  .of_idle hfront fun c hc =>
    h.idle fun hmem => List.any_eq_false.1 hu c hc (decide_eq_true hmem)

theorem crosses_name (h : s.Calm) (cs : List Char) : Crosses s s (Scan.name cs).2 cs :=
  crosses_escapes h (fun _ hc => .inr (h.idle_of_class (by decide) hc)) cs

theorem crosses_blanks (h : s.Calm) (cs : List Char) :
    Crosses s s (Scan.runLength isBlank cs) cs :=
  .of_idle (List.takeWhile_prefix isBlank) fun _ hc =>
    h.idle_of_class (by decide) (List.mem_takeWhile_imp hc)

/-! ## Numbers -/

/-- The characters of numerals. -/
def isNumeralChar (c : Char) : Bool :=
  isDigit c || c == '+' || c == '-' || c == '.' || c.toLower == 'e'

theorem forall_mem_andThen {P : Char → Prop} {p q : List Char → List Char}
    (hp : ∀ cs, ∀ c ∈ p cs, P c) (hq : ∀ cs, ∀ c ∈ q cs, P c) (cs : List Char) :
    ∀ c ∈ Scan.andThen p q cs, P c :=
  List.forall_mem_append.2 ⟨hp cs, hq _⟩

theorem isNumeralChar_of_signPart (cs : List Char) :
    ∀ c ∈ Scan.signPart cs, isNumeralChar c = true := by
  intro c hc
  have hsign := (List.mem_filter.1 hc).2
  rw [Bool.or_eq_true, beq_iff_eq, beq_iff_eq] at hsign
  rcases hsign with rfl | rfl <;> rfl

theorem isNumeralChar_of_digitsPart (cs : List Char) :
    ∀ c ∈ Scan.digitsPart cs, isNumeralChar c = true := by
  intro c hc
  simp [isNumeralChar, List.mem_takeWhile_imp hc]

theorem isNumeralChar_of_fractionPart (cs : List Char) :
    ∀ c ∈ Scan.fractionPart cs, isNumeralChar c = true := by
  unfold Scan.fractionPart
  split
  · split
    · exact nofun
    · exact List.forall_mem_cons.2 ⟨rfl, isNumeralChar_of_digitsPart _⟩
  · exact nofun

theorem isNumeralChar_of_exponentPart (cs : List Char) :
    ∀ c ∈ Scan.exponentPart cs, isNumeralChar c = true := by
  unfold Scan.exponentPart
  split
  · next e ds =>
    dsimp only
    split
    · next h =>
      refine List.forall_mem_cons.2 ⟨by simp [isNumeralChar, h.1], List.forall_mem_append.2
        ⟨isNumeralChar_of_signPart _, isNumeralChar_of_digitsPart _⟩⟩
    · exact nofun
  · exact nofun

theorem isNumeralChar_of_numeral (cs : List Char) :
    ∀ c ∈ Scan.numeral cs, isNumeralChar c = true :=
  forall_mem_andThen isNumeralChar_of_signPart (forall_mem_andThen isNumeralChar_of_digitsPart
    (forall_mem_andThen isNumeralChar_of_fractionPart isNumeralChar_of_exponentPart)) cs

theorem crosses_numeric (h : s.Calm) (cs : List Char) : Crosses s s (Scan.numeric cs).2 cs := by
  have hdigits : Crosses s s (Scan.numeral cs).length cs :=
    .of_idle (Scan.numeral_isPrefix cs) fun c hc =>
      h.idle_of_class (by decide) (isNumeralChar_of_numeral cs c hc)
  simp only [Scan.numeric]
  split
  · exact hdigits.trans (crosses_name h _)
  split
  · next hpercent =>
    obtain ⟨ds, hds⟩ := List.head?_eq_some_iff.1 hpercent
    apply hdigits.trans
    rw [hds]
    exact .one_idle (h.idle (by decide)) ds
  · exact hdigits

theorem crosses_hash (h : s.Calm) (cs : List Char) :
    Crosses s s (Scan.hash cs).2 ('#' :: cs) := by
  have hsign : Crosses s s 1 ('#' :: cs) := .one_idle (h.idle (by decide)) cs
  simp only [Scan.hash]
  split
  · exact hsign
  split
  · exact hsign.trans (crosses_name h cs)
  · exact hsign.trans (crosses_name h cs)

theorem crosses_atSign (h : s.Calm) (cs : List Char) :
    Crosses s s (Scan.atSign cs).2 ('@' :: cs) := by
  have hsign : Crosses s s 1 ('@' :: cs) := .one_idle (h.idle (by decide)) cs
  simp only [Scan.atSign]
  split
  · exact hsign.trans (crosses_name h cs)
  · exact hsign

end Calm

end Comma
end GradientFallback
