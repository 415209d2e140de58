import GradientFallback.Proofs.Token.Tiling
import Mathlib.Data.List.TakeWhile

/-! # Readers that do not depend on what follows

What is read at the front of a text does not change with the text behind it, as long as reading
stays in front of that text.  Readers look some characters ahead, so this is said of two texts that
may follow: either neither of them is reached, or they start with the same closing sign, with the
same quote or both with a comment.
-/
namespace GradientFallback

namespace Scan

/-- A sign that no token goes on with, unless a string, an address or a comment is open or it is
escaped: punctuation, a quote or a slash. -/
def isStop (c : Char) : Bool :=
  ((punctuation? c).isSome && c != '(') || c == '"' || c == '\'' || c == '/'

/-- All such signs. -/
def stops : List Char := [')', '[', ']', '\x7b', '\x7d', ',', ':', ';', '"', '\'', '/']

/-- The texts start with the same sign; a slash opens a comment in both. -/
def Alike (x y : List Char) : Prop :=
  ∃ c xs ys, isStop c = true ∧ (c = '/' → xs.head? = some '*' ∧ ys.head? = some '*') ∧
    x = c :: xs ∧ y = c :: ys

/-- The number of characters that have been read. -/
def reach {α : Type} (r : Option (α × Nat)) : Nat := (r.map Prod.snd).getD 0

/-- What is read in `front` stays the same with another text behind it. -/
def Steady {α : Type} (step : Step Char α) : Prop :=
  ∀ front x y : List Char, x ≠ [] → y ≠ [] → reach (step (front ++ x)) ≤ front.length →
    (reach (step (front ++ y)) ≤ front.length ∨ Alike x y) → step (front ++ y) = step (front ++ x)

theorem mem_stops_of_isStop {c : Char} (h : isStop c = true) : c ∈ stops := by
  simp only [isStop, punctuation?, Bool.or_eq_true, Bool.and_eq_true, beq_iff_eq] at h
  rcases h with ((⟨hsome, hparen⟩ | rfl) | rfl) | rfl
  · split at hsome <;> simp_all [stops]
  all_goals decide

/-- A class of characters without signs. -/
theorem isStop_eq_false {p : Char → Bool} (h : stops.any p = false) {c : Char}
    (hc : p c = true) : isStop c = false := by
  by_contra hstop
  exact List.any_eq_false.1 h c (mem_stops_of_isStop (by simpa using hstop)) hc

theorem punctuation?_eq_none {p : Char → Bool} (hparen : p '(' = false)
    (h : stops.any p = false) {c : Char} (hc : p c = true) : punctuation? c = none := by
  have hstop := isStop_eq_false h hc
  have hne : c ≠ '(' := by
    rintro rfl
    rw [hparen] at hc
    exact absurd hc nofun
  simp only [isStop, Bool.or_eq_false_iff] at hstop
  simpa [hne] using hstop.1.1.1

@[simp] theorem reach_none {α : Type} : reach (none : Option (α × Nat)) = 0 := rfl

@[simp] theorem reach_some {α : Type} (v : α) (n : Nat) : reach (some (v, n)) = n := rfl

theorem Alike.head? {x y : List Char} (h : Alike x y) : x.head? = y.head? := by
  obtain ⟨c, xs, ys, -, -, rfl, rfl⟩ := h
  rfl

/-! ## Ways to combine readers -/

section Combine

variable {α β : Type}

/-- Reads nothing. -/
def pass (v : α) : Step Char α := fun _ => some (v, 0)

/-- Reads one character that stands for something. -/
def char (p : Char → Option α) : Step Char α
  | c :: _ => (p c).map fun v => (v, 1)
  | [] => none

/-- Reads with the first of the readers that reads anything. -/
def firstOf : List (Step Char α) → Step Char α
  | [] => fun _ => none
  | s :: steps => fun cs => (s cs).or (firstOf steps cs)

def mapped (f : α → β) (step : Step Char α) : Step Char β :=
  fun cs => (step cs).map fun r => (f r.1, r.2)

/-- Reads with `step` and, behind what it has read, with a second reader. -/
def chain (step : Step Char α) (more : α → Step Char β) : Step Char β := fun cs =>
  (step cs).bind fun r => (more r.1 (cs.drop r.2)).map fun s => (s.1, r.2 + s.2)

theorem steady_pass (v : α) : Steady (pass v) := fun _ _ _ _ _ _ _ => rfl

theorem steady_char (p : Char → Option α) : Steady (char p) := by
  intro front x y hx hy hreach hother
  cases front with
  | cons c front => rfl
  | nil =>
    obtain ⟨c, x, rfl⟩ := List.exists_cons_of_ne_nil hx
    obtain ⟨d, y, rfl⟩ := List.exists_cons_of_ne_nil hy
    have hnone : p c = none := by
      rcases h : p c with _ | v
      · rfl
      · simp [char, h] at hreach
    rcases hother with hother | halike
    · have hnone' : p d = none := by
        rcases h : p d with _ | v
        · rfl
        · simp [char, h] at hother
      simp [char, hnone, hnone']
    · obtain rfl : c = d := by simpa using halike.head?
      rfl

theorem Steady.map {step : Step Char α} (h : Steady step) (f : α → β) :
    Steady (mapped f step) := by
  have hreach (cs : List Char) : reach (mapped f step cs) = reach (step cs) := by
    rcases hs : step cs with _ | ⟨v, n⟩ <;> simp [mapped, hs]
  intro front x y hx hy hfits hother
  rw [hreach] at hfits
  rw [hreach] at hother
  simp only [mapped, h front x y hx hy hfits hother]

theorem steady_firstOf {steps : List (Step Char α)} (h : ∀ s ∈ steps, Steady s) :
    Steady (firstOf steps) := by
  induction steps with
  | nil => exact fun _ _ _ _ _ _ _ => rfl
  | cons s steps ih =>
    -- A reader that reads nothing has reached nothing, so the first one is steady in any case.
    have hfirst (cs : List Char) : reach (s cs) ≤ reach (firstOf (s :: steps) cs) := by
      rcases hs : s cs with _ | r <;> simp [firstOf, hs]
    intro front x y hx hy hfits hother
    have hs := h s List.mem_cons_self front x y hx hy ((hfirst _).trans hfits)
      (hother.imp_left (hfirst _).trans)
    simp only [firstOf] at hfits hother ⊢
    rw [hs] at hother ⊢
    rcases hsx : s (front ++ x) with _ | r
    · rw [hsx, Option.none_or] at hfits hother
      rw [Option.none_or, Option.none_or]
      exact ih (fun t ht => h t (List.mem_cons_of_mem s ht)) front x y hx hy hfits hother
    · rfl

theorem Steady.chain {step : Step Char α} {more : α → Step Char β} (h : Steady step)
    (hmore : ∀ v, Steady (more v)) (htotal : ∀ v cs, (more v cs).isSome) :
    Steady (chain step more) := by
  have hreach (cs : List Char) : reach (step cs) ≤ reach (Scan.chain step more cs) := by
    rcases hs : step cs with _ | ⟨v, n⟩
    · exact Nat.zero_le _
    · obtain ⟨⟨w, m⟩, hw⟩ := Option.isSome_iff_exists.1 (htotal v (cs.drop n))
      simp [Scan.chain, hs, hw]
  intro front x y hx hy hfits hother
  have hfirst := (hreach _).trans hfits
  have hs := h front x y hx hy hfirst (hother.imp_left (hreach _).trans)
  rcases hsx : step (front ++ x) with _ | ⟨v, n⟩
  · simp only [Scan.chain, hs, hsx, Option.bind_none]
  · rw [hsx] at hs hfirst
    have hdrop (z : List Char) : (front ++ z).drop n = front.drop n ++ z :=
      List.drop_append_of_le_length hfirst
    have hlater (z : List Char) (hz : step (front ++ z) = some (v, n))
        (hle : reach (Scan.chain step more (front ++ z)) ≤ front.length) :
        reach (more v (front.drop n ++ z)) ≤ (front.drop n).length := by
      obtain ⟨⟨w, m⟩, hw⟩ := Option.isSome_iff_exists.1 (htotal v (front.drop n ++ z))
      simp only [Scan.chain, hz, Option.bind_some, hdrop, hw, Option.map_some, reach_some] at hle
      rw [hw, reach_some, List.length_drop]
      omega
    have hm := hmore v (front.drop n) x y hx hy (hlater x hsx hfits)
      (hother.imp_left (hlater y hs))
    simp only [Scan.chain, hs, hsx, Option.bind_some, hdrop, hm]

theorem chain_isSome {step : Step Char α} {more : α → Step Char β} {cs : List Char}
    (h : (step cs).isSome) (hmore : ∀ v cs, (more v cs).isSome) :
    (chain step more cs).isSome := by
  obtain ⟨⟨v, n⟩, hv⟩ := Option.isSome_iff_exists.1 h
  simp [chain, hv, hmore]

theorem reach_chain {step : Step Char α} {more : α → Step Char β} {cs : List Char} {v : α} {n : Nat}
    (h : step cs = some (v, n)) (hmore : ∀ v cs, (more v cs).isSome) :
    reach (chain step more cs) = n + reach (more v (cs.drop n)) := by
  obtain ⟨⟨w, m⟩, hw⟩ := Option.isSome_iff_exists.1 (hmore v (cs.drop n))
  simp [chain, h, hw]

/-- Reads behind a fixed character. -/
def behind (c : Char) (step : Step Char α) : Step Char α
  | d :: cs => if d = c then (step cs).map fun r => (r.1, 1 + r.2) else none
  | [] => none

/-- Behind a sign that both texts may start with, something is read in any case. -/
theorem Steady.behind {step : Step Char α} (h : Steady step) {c : Char}
    (hc : ∀ xs ys, Alike (c :: xs) (c :: ys) → (step xs).isSome) : Steady (behind c step) := by
  have hzero (cs : List Char) (hcs : reach (Scan.behind c step cs) ≤ 0) :
      Scan.behind c step cs = none := by
    cases cs with
    | nil => rfl
    | cons d cs =>
      by_cases hd : d = c
      · subst hd
        rcases hs : step cs with _ | r
        · simp [Scan.behind, hs]
        · simp [Scan.behind, hs] at hcs
      · simp [Scan.behind, hd]
  have hrest (d : Char) (front z : List Char)
      (hz : reach (Scan.behind d step (d :: (front ++ z))) ≤ front.length + 1) :
      reach (step (front ++ z)) ≤ front.length := by
    rcases hs : step (front ++ z) with _ | ⟨v, n⟩
    · exact Nat.zero_le _
    · simp only [Scan.behind, hs, if_true, Option.map_some, reach_some] at hz
      rw [reach_some]
      omega
  intro front x y hx hy hfits hother
  cases front with
  | nil =>
    rw [List.nil_append, List.nil_append, hzero x hfits]
    rcases hother with hother | halike
    · exact hzero y hother
    · obtain ⟨d, xs, ys, -, -, rfl, rfl⟩ := id halike
      have hne : d ≠ c := by
        rintro rfl
        obtain ⟨r, hr⟩ := Option.isSome_iff_exists.1 (hc xs ys halike)
        have hnone := hzero (d :: xs) hfits
        simp [Scan.behind, hr] at hnone
      exact if_neg hne
  | cons d front =>
    by_cases hd : d = c
    · subst hd
      have hs := h front x y hx hy (hrest d front x hfits) (hother.imp_left (hrest d front y))
      simp only [List.cons_append, Scan.behind, if_true, hs]
    · simp only [List.cons_append, Scan.behind, if_neg hd]

theorem Steady.behind_plain {step : Step Char α} (h : Steady step) {c : Char}
    (hc : isStop c = false) : Steady (Scan.behind c step) := by
  refine h.behind fun xs ys halike => ?_
  obtain ⟨d, _, _, hd, -, hx, -⟩ := halike
  rw [← (List.cons.inj hx).1, hc] at hd
  exact absurd hd nofun

/-- A reader behind a test is steady if what is read decides the test. -/
theorem Steady.guarded {step : Step Char α} (h : Steady step) {p : List Char → Prop}
    [DecidablePred p]
    (hhere : ∀ front z w, z ≠ [] → p (front ++ z) → reach (step (front ++ z)) ≤ front.length →
      p (front ++ w))
    (halike : ∀ front x y, Alike x y → p (front ++ y) → p (front ++ x)) :
    Steady fun cs => if p cs then step cs else none := by
  intro front x y hx hy hfits hother
  by_cases hp : p (front ++ x)
  · simp only [if_pos hp] at hfits
    have hp' := hhere front x y hx hp hfits
    simp only [if_pos hp, if_pos hp'] at hother ⊢
    exact h front x y hx hy hfits hother
  · have hp' : ¬p (front ++ y) := by
      intro hp'
      rcases hother with hother | hsame
      · simp only [if_pos hp'] at hother
        exact hp (hhere front y x hy hp' hother)
      · exact hp (halike front x y hsame hp')
    simp only [if_neg hp, if_neg hp']

end Combine

/-! ## Readers that look at characters one by one -/

/-- What is read stands at the front of the text, has no sign in it, and is what would be read if
nothing followed, as long as it does not reach what follows. -/
structure Local (p : List Char → List Char) : Prop where
  isPrefix : ∀ cs, p cs <+: cs
  noStop : ∀ cs, ∀ c ∈ p cs, isStop c = false
  here : ∀ front x, (p (front ++ x)).length ≤ front.length → p (front ++ x) = p front

namespace Local

variable {p q : List Char → List Char}

/-- A character that is never read is not reached. -/
theorem length_le_of_not_mem (h : Local p) (front : List Char) {c : Char}
    (hc : ∀ cs, c ∉ p cs) (cs : List Char) : (p (front ++ c :: cs)).length ≤ front.length := by
  by_contra hlong
  obtain ⟨more, hmore⟩ := h.isPrefix (front ++ c :: cs)
  have hat : (p (front ++ c :: cs) ++ more)[front.length]? = some c := by
    rw [hmore]
    simp
  rw [List.getElem?_append_left (by omega)] at hat
  exact hc _ (List.mem_of_getElem? hat)

/-- No sign is reached. -/
theorem length_le_of_stop (h : Local p) (front : List Char) {c : Char} (hc : isStop c = true)
    (cs : List Char) : (p (front ++ c :: cs)).length ≤ front.length := by
  refine h.length_le_of_not_mem front (fun ds hmem => ?_) cs
  have hfalse := h.noStop ds c hmem
  rw [hc] at hfalse
  exact absurd hfalse nofun

theorem length_le_of_alike (h : Local p) (front : List Char) {x y : List Char} (halike : Alike x y) :
    (p (front ++ y)).length ≤ front.length := by
  obtain ⟨c, xs, ys, hc, -, rfl, rfl⟩ := halike
  exact h.length_le_of_stop front hc ys

/-- The second reader reads in what the first one has left of the front. -/
theorem andThen_here (h : Local p) {front x : List Char}
    (hlength : (andThen p q (front ++ x)).length ≤ front.length) :
    p (front ++ x) = p front ∧
      (front ++ x).drop (p front).length = front.drop (p front).length ++ x ∧
      (q (front.drop (p front).length ++ x)).length ≤ (front.drop (p front).length).length := by
  simp only [andThen, List.length_append] at hlength
  have hp := h.here front x (by omega)
  rw [hp] at hlength
  have hle := (h.isPrefix front).length_le
  have hdrop : (front ++ x).drop (p front).length = front.drop (p front).length ++ x :=
    List.drop_append_of_le_length hle
  rw [hdrop] at hlength
  refine ⟨hp, hdrop, ?_⟩
  rw [List.length_drop]
  omega

theorem andThen (hp : Local p) (hq : Local q) : Local (andThen p q) where
  isPrefix := andThen_isPrefix hp.isPrefix hq.isPrefix
  noStop cs c hc := (List.mem_append.1 hc).elim (hp.noStop _ c) (hq.noStop _ c)
  here front x hlength := by
    obtain ⟨hfirst, hdrop, hrest⟩ := hp.andThen_here hlength
    simp only [Scan.andThen, hfirst, hdrop, hq.here _ x hrest]

/-- A run of characters of one class. -/
theorem takeWhile {p : Char → Bool} (h : ∀ c, p c = true → isStop c = false) :
    Local (List.takeWhile p) where
  isPrefix cs := List.takeWhile_prefix p
  noStop cs c hc := h c (List.mem_takeWhile_imp hc)
  here front x hlength := by
    rw [List.takeWhile_append] at hlength ⊢
    split
    · next hall =>
      rw [if_pos hall, List.length_append] at hlength
      have hnil : x.takeWhile p = [] := List.eq_nil_of_length_eq_zero (by omega)
      rw [hnil, List.append_nil]
      exact ((List.takeWhile_prefix p).eq_of_length hall).symm
    · rfl

theorem nil_of_nil (h : Local p) {front x : List Char} (hnil : p (front ++ x) = []) :
    p front = [] := by
  rw [← h.here front x (by rw [hnil]; exact Nat.zero_le _), hnil]

end Local

/-- The characters that a local reader reads, which may be none. -/
def runOf (p : List Char → List Char) : Step Char (List Char) := fun cs =>
  some (p cs, (p cs).length)

theorem steady_runOf {p : List Char → List Char} (h : Local p) : Steady (runOf p) := by
  intro front x y hx hy hfits hother
  have hy' := hother.elim id fun halike => h.length_le_of_alike front halike
  simp only [runOf, h.here front x hfits, h.here front y hy']

/-! ## Numbers -/

theorem local_signPart : Local signPart where
  isPrefix := signPart_isPrefix
  noStop cs c hc := by
    apply isStop_eq_false (p := fun c => c == '+' || c == '-') (by decide)
    exact (List.mem_filter.1 hc).2
  here front x hlength := by
    cases front with
    | nil => exact List.eq_nil_of_length_eq_zero (by simpa using hlength)
    | cons c front => simp [signPart]

theorem local_digitsPart : Local digitsPart :=
  Local.takeWhile fun _ => isStop_eq_false (by decide)

theorem drop_signPart {front : List Char} (h : front ≠ []) (x : List Char) :
    (front ++ x).drop (signPart (front ++ x)).length =
      front.drop (signPart front).length ++ x := by
  have hsign : signPart (front ++ x) = signPart front := by
    obtain ⟨c, front, rfl⟩ := List.exists_cons_of_ne_nil h
    simp [signPart]
  rw [hsign]
  exact List.drop_append_of_le_length (signPart_isPrefix front).length_le

theorem digits_behind_sign {front x : List Char}
    (h : digitsPart ((front ++ x).drop (signPart (front ++ x)).length) = []) :
    digitsPart (front.drop (signPart front).length) = [] := by
  by_cases hfront : front = []
  · subst hfront
    rfl
  · rw [drop_signPart hfront] at h
    exact local_digitsPart.nil_of_nil h

theorem local_fractionPart : Local fractionPart where
  isPrefix := fractionPart_isPrefix
  noStop cs c hc := by
    unfold fractionPart at hc
    split at hc
    · split at hc
      · exact absurd hc List.not_mem_nil
      · rcases List.mem_cons.1 hc with rfl | hc
        · rfl
        · exact local_digitsPart.noStop _ c hc
    · exact absurd hc List.not_mem_nil
  here front x hlength := by
    cases front with
    | nil => exact List.eq_nil_of_length_eq_zero (by simpa using hlength)
    | cons c front =>
      by_cases hc : c = '.'
      · subst hc
        have hpoint (cs : List Char) : fractionPart ('.' :: cs) =
            if digitsPart cs = [] then [] else '.' :: digitsPart cs := rfl
        rw [List.cons_append, hpoint] at hlength ⊢
        rw [hpoint]
        by_cases hnil : digitsPart (front ++ x) = []
        · rw [hnil, local_digitsPart.nil_of_nil hnil]
        · rw [if_neg hnil] at hlength
          rw [local_digitsPart.here front x (by simpa using hlength)]
      · have hnone (cs : List Char) : fractionPart (c :: cs) = [] :=
          fractionPart.eq_2 _ fun ds heq => hc (List.cons.inj heq).1
        rw [List.cons_append, hnone, hnone]

theorem exponentPart_cons (e : Char) (cs : List Char) :
    exponentPart (e :: cs) =
      if e.toLower = 'e' ∧ digitsPart (cs.drop (signPart cs).length) ≠ [] then
        e :: andThen signPart digitsPart cs
      else [] := rfl

theorem local_exponentPart : Local exponentPart where
  isPrefix := exponentPart_isPrefix
  noStop cs c hc := by
    cases cs with
    | nil => exact absurd hc List.not_mem_nil
    | cons e cs =>
      rw [exponentPart_cons] at hc
      split at hc
      · next he =>
        rcases List.mem_cons.1 hc with rfl | hc
        · exact isStop_eq_false (p := fun c => c.toLower == 'e') (by decide) (by simp [he.1])
        · exact (local_signPart.andThen local_digitsPart).noStop _ c hc
      · exact absurd hc List.not_mem_nil
  here front x hlength := by
    cases front with
    | nil => exact List.eq_nil_of_length_eq_zero (by simpa using hlength)
    | cons e front =>
      rw [List.cons_append, exponentPart_cons] at hlength ⊢
      rw [exponentPart_cons]
      by_cases he : e.toLower = 'e'
      · by_cases hdigits : digitsPart ((front ++ x).drop (signPart (front ++ x)).length) = []
        · rw [if_neg fun h => h.2 hdigits, if_neg fun h => h.2 (digits_behind_sign hdigits)]
        · rw [if_pos ⟨he, hdigits⟩, List.length_cons, List.length_cons] at hlength
          have hlength' := Nat.le_of_succ_le_succ hlength
          obtain ⟨hsign, hdrop, hrest⟩ := local_signPart.andThen_here hlength'
          rw [hsign, hdrop, local_digitsPart.here _ x hrest] at hdigits ⊢
          rw [if_pos ⟨he, hdigits⟩, if_pos ⟨he, hdigits⟩,
            (local_signPart.andThen local_digitsPart).here front x hlength']
      · rw [if_neg fun h => he h.1, if_neg fun h => he h.1]

theorem local_numeral : Local numeral :=
  local_signPart.andThen (local_digitsPart.andThen (local_fractionPart.andThen local_exponentPart))

theorem startsUnsigned_append {cs : List Char} (h : startsUnsigned cs = true) (x : List Char) :
    startsUnsigned (cs ++ x) = true := by
  by_contra hnot
  simp only [startsUnsigned, Bool.or_eq_true, bne_iff_ne, not_or, not_not] at h hnot
  exact h.elim (fun hdigits => hdigits (local_digitsPart.nil_of_nil hnot.1))
    fun hfraction => hfraction (local_fractionPart.nil_of_nil hnot.2)

theorem startsNumber_append {front : List Char} (h : startsNumber front = true) (x : List Char) :
    startsNumber (front ++ x) = true := by
  have hfront : front ≠ [] := by
    rintro rfl
    exact absurd h nofun
  rw [startsNumber, drop_signPart hfront]
  exact startsUnsigned_append h x

/-- A number that stays in front of what follows starts there. -/
theorem startsNumber_here {front x : List Char} (h : startsNumber (front ++ x) = true)
    (hlength : (numeral (front ++ x)).length ≤ front.length) : startsNumber front = true := by
  obtain ⟨hsign, hdrop, hunsigned⟩ := local_signPart.andThen_here hlength
  obtain ⟨hdigits, hdrop', hrest⟩ := local_digitsPart.andThen_here hunsigned
  rw [startsNumber, hsign, hdrop] at h
  simp only [startsNumber, startsUnsigned, Bool.or_eq_true, bne_iff_ne] at h ⊢
  rw [hdigits] at h
  by_cases hnil : digitsPart (front.drop (signPart front).length) = []
  · rw [hnil] at hrest
    have hfraction := (local_fractionPart.andThen_here hrest).1
    simp only [List.length_nil, List.drop_zero] at hfraction
    rw [hfraction] at h
    exact h
  · exact .inl hnil

def numeralStep : Step Char (List Char) := fun cs =>
  if startsNumber cs then some (numeral cs, (numeral cs).length) else none

theorem steady_numeralStep : Steady numeralStep :=
  (steady_runOf local_numeral).guarded
    (fun _ _ w _ h hz => startsNumber_append (startsNumber_here h hz) w)
    fun front x _ halike h => startsNumber_append
      (startsNumber_here h (local_numeral.length_le_of_alike front halike)) x

end Scan
end GradientFallback
