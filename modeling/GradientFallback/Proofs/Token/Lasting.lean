import GradientFallback.Proofs.Token.Respelling

/-! # Tokens at the end of a text

The end of a text closes strings, addresses and comments and leaves a backslash alone, so it is not
like any character that may follow.  But what is read in front of a closing brace without reaching it
waits for no end, and is read in the same way where the text ends in its place.
-/
namespace GradientFallback

namespace Scan

/-- What is read in front of a closing brace stays the same without the brace and all behind it. -/
def Lasting {α : Type} (step : Step Char α) : Prop :=
  ∀ front x : List Char, reach (step (front ++ '\x7d' :: x)) ≤ front.length →
    step front = step (front ++ '\x7d' :: x)

section Combine

variable {α β : Type}

theorem lasting_pass (v : α) : Lasting (pass v) := fun _ _ _ => rfl

theorem lasting_char (p : Char → Option α) : Lasting (char p) := by
  intro front x hfits
  cases front with
  | cons c front => rfl
  | nil =>
    rcases h : p '\x7d' with _ | v
    · simp [char, h]
    · simp [char, h] at hfits

theorem Lasting.map {step : Step Char α} (h : Lasting step) (f : α → β) :
    Lasting (mapped f step) := by
  intro front x hfits
  have hreach : reach (mapped f step (front ++ '\x7d' :: x)) =
      reach (step (front ++ '\x7d' :: x)) := by
    rcases hs : step (front ++ '\x7d' :: x) with _ | ⟨v, n⟩ <;> simp [mapped, hs]
  rw [hreach] at hfits
  simp only [mapped, h front x hfits]

theorem lasting_firstOf {steps : List (Step Char α)} (h : ∀ s ∈ steps, Lasting s) :
    Lasting (firstOf steps) := by
  induction steps with
  | nil => exact fun _ _ _ => rfl
  | cons s steps ih =>
    intro front x hfits
    have hfirst : reach (s (front ++ '\x7d' :: x)) ≤ front.length := by
      refine Nat.le_trans ?_ hfits
      rcases hs : s (front ++ '\x7d' :: x) with _ | r <;> simp [firstOf, hs]
    have hs := h s List.mem_cons_self front x hfirst
    simp only [firstOf] at hfits ⊢
    rw [hs]
    rcases hsx : s (front ++ '\x7d' :: x) with _ | r
    · rw [hsx, Option.none_or] at hfits
      rw [Option.none_or, Option.none_or]
      exact ih (fun t ht => h t (List.mem_cons_of_mem s ht)) front x hfits
    · rfl

/-- The second reader has to be lasting only where the first one can stop. -/
theorem Lasting.chain {step : Step Char α} {more : α → Step Char β} (h : Lasting step)
    (hmore : ∀ front x v n, step (front ++ '\x7d' :: x) = some (v, n) → n ≤ front.length →
      reach (more v (front.drop n ++ '\x7d' :: x)) ≤ (front.drop n).length →
        more v (front.drop n) = more v (front.drop n ++ '\x7d' :: x))
    (htotal : ∀ v cs, (more v cs).isSome) : Lasting (chain step more) := by
  intro front x hfits
  rcases hread : step (front ++ '\x7d' :: x) with _ | ⟨v, n⟩
  · have hs := h front x (by simp [hread])
    simp only [Scan.chain, hs, hread, Option.bind_none]
  · obtain ⟨⟨w, m⟩, hw⟩ := Option.isSome_iff_exists.1 (htotal v ((front ++ '\x7d' :: x).drop n))
    have hsum : n + m ≤ front.length := by
      simpa only [Scan.chain, hread, Option.bind_some, hw, Option.map_some, reach_some] using hfits
    have hdrop : (front ++ '\x7d' :: x).drop n = front.drop n ++ '\x7d' :: x :=
      List.drop_append_of_le_length (by omega)
    have hs := h front x (by rw [hread, reach_some]; omega)
    rw [hdrop] at hw
    have hm := hmore front x v n hread (by omega) (by rw [hw, reach_some, List.length_drop]; omega)
    simp only [Scan.chain, hs, hread, Option.bind_some, hdrop, hm]

theorem Lasting.behind {step : Step Char α} (h : Lasting step) {c : Char} (hc : c ≠ '\x7d') :
    Lasting (behind c step) := by
  intro front x hfits
  cases front with
  | nil => exact (if_neg hc.symm).symm
  | cons d front =>
    by_cases hd : d = c
    · subst hd
      have hrest : reach (step (front ++ '\x7d' :: x)) ≤ front.length := by
        rcases hs : step (front ++ '\x7d' :: x) with _ | ⟨v, n⟩
        · exact Nat.zero_le _
        · simp only [List.cons_append, Scan.behind, hs, if_true, Option.map_some, reach_some,
            List.length_cons] at hfits
          rw [reach_some]
          omega
      simp only [List.cons_append, Scan.behind, if_true, h front x hrest]
    · simp only [List.cons_append, Scan.behind, if_neg hd]

/-- A reader behind a test is lasting if what is read decides the test. -/
theorem Lasting.guarded {step : Step Char α} (h : Lasting step) {p : List Char → Prop}
    [DecidablePred p]
    (hhere : ∀ front x, p (front ++ '\x7d' :: x) →
      reach (step (front ++ '\x7d' :: x)) ≤ front.length → p front)
    (happend : ∀ front x, p front → p (front ++ '\x7d' :: x)) :
    Lasting fun cs => if p cs then step cs else none := by
  intro front x hfits
  by_cases hp : p (front ++ '\x7d' :: x)
  · simp only [if_pos hp] at hfits
    simp only [if_pos hp, if_pos (hhere front x hp hfits), h front x hfits]
  · simp only [if_neg hp, if_neg fun hp' => hp (happend front x hp')]

theorem lasting_runOf {p : List Char → List Char} (h : Local p) : Lasting (runOf p) := by
  intro front x hfits
  simp only [runOf, h.here front _ hfits]

theorem lasting_literal (text : List Char) (v : α) : Lasting (literal text v) := by
  have hsame : Lasting fun _ => some (v, text.length) := fun _ _ _ => rfl
  exact hsame.guarded (fun _ _ h hle => isPrefix_here h hle)
    fun front _ h => h.trans (List.prefix_append front _)

/-- Reading piece by piece is as lasting as the reading of one piece. -/
theorem segment_lasting {step : Step Char α} (h : Lasting step) {front x : List Char}
    (hfits : Piece.width (segment step (front ++ '\x7d' :: x)) ≤ front.length) :
    segment step front = segment step (front ++ '\x7d' :: x) := by
  have hbrace : '\x7d' :: x ≠ [] := List.cons_ne_nil _ x
  have hsame : segment step (front ++ []) = segment step (front ++ '\x7d' :: x) := by
    refine segment_exchange hbrace hfits (fun more v n hread _ hle _ => ?_) ?_
    · rw [List.append_nil, h more x (by rwa [hread, reach_some]), hread]
    · -- Where reading ends in front of the brace, it ends at the end of the text too.
      have hend := segment_drop_width step (front ++ '\x7d' :: x)
      rw [List.drop_append_of_le_length hfits] at hend
      have hzero := reach_of_segment_nil (List.append_ne_nil_of_right_ne_nil _ hbrace) hend
      have hstep := h _ x (hzero.trans_le (Nat.zero_le _))
      rw [List.append_nil]
      exact segment_nil_of_reach (by rw [hstep, hzero])
  rwa [List.append_nil] at hsame

theorem lasting_pieces {step : Step Char α} (h : Lasting step) : Lasting (pieces step) := by
  intro front x hfits
  simp only [pieces, segment_lasting h hfits]

end Combine

/-! ## Names and numbers -/

theorem lasting_escape? : Lasting escape? := by
  intro front x hfits
  cases front with
  | nil => rfl
  | cons c front =>
    by_cases hc : c = '\\'
    · subst hc
      cases front with
      | nil =>
        have hlast := (escape?_last (List.cons_ne_nil '\x7d' x) hfits).1
        exact absurd hlast (by simp)
      | cons d front =>
        simp only [List.cons_append, escape?_backslash] at hfits ⊢
        by_cases hd : d = '\n'
        · rw [if_pos hd, if_pos hd]
        · rw [if_neg hd] at hfits ⊢
          rw [if_neg hd]
          by_cases hhex : isHexDigit d = true
          · rw [if_pos hhex] at hfits ⊢
            rw [if_pos hhex]
            exact congrArg some (hexEscape_here (d :: front) ('\x7d' :: x) hfits).symm
          · rw [if_neg hhex, if_neg hhex]
    · have hnone (cs : List Char) : escape? (c :: cs) = none := escape?_eq_none (by simpa using hc)
      rw [List.cons_append, hnone, hnone]

theorem lasting_escapeOr (p : Char → Bool) : Lasting (escapeOr p) := by
  rw [escapeOr_eq]
  refine lasting_firstOf fun s hs => ?_
  simp only [List.mem_cons, List.not_mem_nil, or_false] at hs
  rcases hs with rfl | rfl
  · exact lasting_escape?
  · exact lasting_char _

theorem name_lasting {front x : List Char} (h : (name (front ++ '\x7d' :: x)).2 ≤ front.length) :
    name front = name (front ++ '\x7d' :: x) := by
  have hpieces := segment_lasting (lasting_escapeOr isNameChar) h
  simp only [name, hpieces]

theorem lasting_identStep : Lasting identStep := by
  have hname : Lasting fun cs => some (name cs) := fun _ _ hfits =>
    congrArg some (name_lasting hfits)
  exact hname.guarded (fun _ _ h hle => startsIdent_here h hle) fun _ _ h => startsIdent_append h _

theorem lasting_nameStep : Lasting nameStep := by
  intro front x hfits
  have hwidth : (name (front ++ '\x7d' :: x)).2 ≤ front.length := by
    unfold nameStep at hfits
    split at hfits
    · omega
    · exact hfits
  simp only [nameStep, name_lasting hwidth]

theorem lasting_numeralStep : Lasting numeralStep :=
  (lasting_runOf local_numeral).guarded (fun _ _ h hle => startsNumber_here h hle)
    fun _ _ h => startsNumber_append h _

/-! ## Strings, addresses and comments -/

theorem lasting_stringStep (quote : Char) : Lasting (stringStep quote) := by
  rw [stringStep_eq]
  refine lasting_firstOf fun s hs => ?_
  simp only [List.mem_cons, List.not_mem_nil, or_false] at hs
  rcases hs with rfl | rfl
  · exact lasting_literal _ none
  · exact (lasting_escapeOr _).map some

theorem stringStep_brace {quote : Char} (hquote : quote ≠ '\x7d') (x : List Char) :
    stringStep quote ('\x7d' :: x) = some (some '\x7d', 1) := by
  simp [stringStep, escapeOr, escape?, hquote.symm]

/-- A string that is open goes on over a closing brace. -/
theorem lasting_stringBody {quote : Char} (hquote : quote ≠ '\x7d') : Lasting (stringBody quote) := by
  apply (lasting_pieces (lasting_stringStep quote)).chain _ (stringEnd_isSome quote)
  intro front x content n hread hn hfits
  rcases hrest : front.drop n with _ | ⟨c, rest⟩
  · exfalso
    have hlength : n = front.length := Nat.le_antisymm hn (List.drop_eq_nil_iff.1 hrest)
    have hwidth : Piece.width (segment (stringStep quote) (front ++ '\x7d' :: x)) = n :=
      congrArg Prod.snd (Option.some.inj hread)
    have hend := segment_drop_width (stringStep quote) (front ++ '\x7d' :: x)
    rw [hwidth, hlength, List.drop_left] at hend
    have hzero := reach_of_segment_nil (List.cons_ne_nil _ x) hend
    rw [stringStep_brace hquote] at hzero
    exact absurd hzero Nat.one_ne_zero
  · rfl

theorem lasting_closer : Lasting closer := by
  intro front x hfits
  cases front with
  | cons c front => rfl
  | nil => exact absurd hfits (by simp [closer])

theorem lasting_brokenUrl (address : String) : Lasting (brokenUrl address) :=
  (lasting_pieces (lasting_escapeOr _)).chain
    (fun front x _ n _ _ => lasting_closer.map _ (front.drop n) x) fun _ _ => rfl

theorem lasting_urlEnd (address : String) : Lasting (urlEnd address) := by
  intro front x hfits
  cases front with
  | nil => exact absurd (urlEnd_pos address (List.cons_ne_nil '\x7d' x)) (by simpa using hfits)
  | cons c front =>
    by_cases hc : c = ')'
    · simp [urlEnd, hc]
    · simp only [List.cons_append, urlEnd, if_neg hc] at hfits ⊢
      exact lasting_brokenUrl address (c :: front) x hfits

theorem lasting_urlBody : Lasting urlBody := by
  have hend (address : List Char) :
      Lasting (chain (runOf (List.takeWhile isBlank)) fun _ => urlEnd (String.ofList address)) :=
    (lasting_runOf local_blanks).chain (fun front x _ n _ _ => lasting_urlEnd _ (front.drop n) x)
      fun _ _ => urlEnd_isSome _ _
  have hrest : Lasting urlRest := (lasting_pieces (lasting_escapeOr _)).chain
    (fun front x _ n _ _ => hend _ (front.drop n) x)
    fun _ _ => chain_isSome rfl fun _ _ => urlEnd_isSome _ _
  exact (lasting_runOf local_blanks).chain (fun front x _ n _ _ => hrest (front.drop n) x)
    fun _ => urlRest_isSome

theorem lasting_urlStep : Lasting urlStep := by
  have hstarts (front x : List Char) : startsUrl front = startsUrl (front ++ '\x7d' :: x) := by
    rcases hfront : front.dropWhile isBlank with _ | ⟨c, rest⟩
    · have hbrace : (('\x7d' :: x).dropWhile isBlank).head? = some '\x7d' := rfl
      simp [startsUrl_eq, List.dropWhile_append, hfront, hbrace]
    · rw [startsUrl_eq, startsUrl_eq, dropWhile_append_of_drop hfront, hfront]
      rfl
  exact lasting_urlBody.guarded (fun front x h _ => (hstarts front x).trans h)
    fun front x h => (hstarts front x).symm.trans h

theorem lasting_commentBody : Lasting commentBody := by
  intro front x hfits
  simp only [commentBody, reach_some] at hfits
  have hsame := comment_here front (List.cons_ne_nil '\x7d' x) (by omega) []
  rw [List.append_nil] at hsame
  simp only [commentBody, hsame]

/-! ## All tokens -/

theorem lasting_identLikeStep : Lasting identLikeStep := by
  apply lasting_identStep.chain
  · intro front x value n _ _
    apply lasting_firstOf
    intro s hs
    simp only [List.mem_cons, List.not_mem_nil, or_false] at hs
    rcases hs with rfl | rfl | rfl
    · split
      · exact lasting_urlStep.behind (by decide)
      · exact fun _ _ _ => rfl
    · exact (lasting_pass _).behind (by decide)
    · exact lasting_pass _
  · simp [firstOf, pass]

theorem lasting_hashStep : Lasting hashStep := by
  refine (lasting_firstOf fun s hs => ?_).behind (by decide)
  simp only [List.mem_cons, List.not_mem_nil, or_false] at hs
  rcases hs with rfl | rfl | rfl
  · exact lasting_identStep.map _
  · exact lasting_nameStep.map _
  · exact lasting_pass _

theorem lasting_atStep : Lasting atStep := by
  refine (lasting_firstOf fun s hs => ?_).behind (by decide)
  simp only [List.mem_cons, List.not_mem_nil, or_false] at hs
  rcases hs with rfl | rfl
  · exact lasting_identStep.map _
  · exact lasting_pass _

theorem lasting_numberStep : Lasting numberStep := by
  apply lasting_numeralStep.chain
  · intro front x digits n _ _
    apply lasting_firstOf
    intro s hs
    simp only [List.mem_cons, List.not_mem_nil, or_false] at hs
    rcases hs with rfl | rfl | rfl
    · exact lasting_identStep.map _
    · exact (lasting_pass _).behind (by decide)
    · exact lasting_pass _
  · simp [firstOf, pass]

theorem lasting_blankStep : Lasting blankStep :=
  (lasting_char _).chain (fun front x _ n _ _ => (lasting_runOf local_blanks).map _ (front.drop n) x)
    fun _ _ => rfl

theorem lasting_token : Lasting token := by
  rw [show token = firstOf tokenSteps from funext token_eq]
  refine lasting_firstOf fun s hs => ?_
  simp only [tokenSteps, List.mem_cons, List.not_mem_nil, or_false] at hs
  rcases hs with rfl | rfl | rfl | rfl | rfl | rfl | rfl | rfl | rfl | rfl | rfl | rfl
  · exact (lasting_commentBody.behind (by decide)).behind (by decide)
  · exact lasting_char _
  · exact lasting_blankStep
  · exact (lasting_stringBody (by decide)).behind (by decide)
  · exact (lasting_stringBody (by decide)).behind (by decide)
  · exact lasting_hashStep
  · exact lasting_atStep
  · exact lasting_numberStep
  · exact lasting_literal _ _
  · exact lasting_literal _ _
  · exact lasting_identLikeStep
  · exact lasting_char _

end Scan

/-- Tokens in front of a closing brace are read back at the end of a text. -/
theorem Token.Spelled.at_end {ts : List Token} {x : List Char} (h : Spelled ts ('\x7d' :: x)) :
    Spelled ts [] := by
  induction ts with
  | nil => trivial
  | cons t ts ih =>
    refine ⟨?_, ih h.2⟩
    have hread := h.1
    rw [← List.append_assoc] at hread
    rw [List.append_nil, ← hread]
    apply Scan.lasting_token
    rw [hread, Scan.reach_some, List.length_append]
    exact Nat.le_add_right _ _

end GradientFallback
