import GradientFallback.Proofs.Token.Spelling
import GradientFallback.Proofs.Token.Steady

/-! # Tokens do not depend on what follows them

Each reader of a kind of token is steady, and so is the reader of all tokens.
-/
namespace GradientFallback

namespace Scan

/-! ## Escapes -/

/-- A run of characters of one class that is no longer than `n`. -/
theorem Local.takeWhile_take {p : Char → Bool} (h : ∀ c, p c = true → isStop c = false) (n : Nat) :
    Local fun cs => (cs.take n).takeWhile p where
  isPrefix cs := (List.takeWhile_prefix p).trans (List.take_prefix n cs)
  noStop cs := (Local.takeWhile h).noStop (cs.take n)
  here front x hlength := by
    by_cases hn : n ≤ front.length
    · rw [List.take_append_of_le_length hn]
    · rw [List.take_append, List.take_of_length_le (by omega)] at hlength ⊢
      exact (Local.takeWhile h).here front _ hlength

/-- The digits of a code point and the blank behind them. -/
def hexPart : List Char → List Char :=
  andThen (fun cs => (cs.take 6).takeWhile isHexDigit) fun cs => (cs.take 1).takeWhile isBlank

theorem local_hexDigits : Local fun cs => (cs.take 6).takeWhile isHexDigit :=
  Local.takeWhile_take (fun _ => isStop_eq_false (by decide)) 6

theorem local_hexPart : Local hexPart :=
  local_hexDigits.andThen (Local.takeWhile_take (fun _ => isStop_eq_false (by decide)) 1)

theorem hexEscape_snd (cs : List Char) : (hexEscape cs).2 = 1 + (hexPart cs).length := by
  simp [hexEscape, hexPart, andThen, Nat.add_assoc]

theorem hexEscape_here (front x : List Char) (h : (hexEscape (front ++ x)).2 ≤ front.length + 1) :
    hexEscape (front ++ x) = hexEscape front := by
  have hlength : (hexPart (front ++ x)).length ≤ front.length := by
    rw [hexEscape_snd] at h
    omega
  have hdigits := (local_hexDigits.andThen_here hlength).1
  have hpart := local_hexPart.here front x hlength
  have hwidth : (hexEscape (front ++ x)).2 = (hexEscape front).2 := by
    rw [hexEscape_snd, hexEscape_snd, hpart]
  exact Prod.ext (congrArg (fun ds => charOfCode (digitsValue 16 ds)) hdigits) hwidth

theorem ne_backslash_of_isStop {c : Char} (h : isStop c = true) : c ≠ '\\' := by
  rintro rfl
  exact absurd h nofun

theorem escape?_backslash (d : Char) (cs : List Char) :
    escape? ('\\' :: d :: cs) =
      if d = '\n' then none
      else if isHexDigit d then some (hexEscape (d :: cs)) else some (d, 2) := rfl

/-- A backslash escapes whatever is behind it, unless that is a line end. -/
theorem escape?_last {x : List Char} (hx : x ≠ []) (h : reach (escape? ('\\' :: x)) ≤ 1) :
    x.head? = some '\n' ∧ escape? ('\\' :: x) = none := by
  obtain ⟨d, x, rfl⟩ := List.exists_cons_of_ne_nil hx
  rw [escape?_backslash] at h ⊢
  by_cases hd : d = '\n'
  · exact ⟨by rw [hd]; rfl, if_pos hd⟩
  · rw [if_neg hd] at h
    by_cases hhex : isHexDigit d = true
    · have hpos : 0 < (hexPart (d :: x)).length := by
        simp [hexPart, andThen, hhex]
      rw [if_pos hhex] at h
      have hwidth := hexEscape_snd (d :: x)
      rcases he : hexEscape (d :: x) with ⟨v, n⟩
      rw [he] at h hwidth
      simp only [reach_some] at h hwidth
      omega
    · rw [if_neg hhex] at h
      simp at h

theorem steady_escape? : Steady escape? := by
  intro front x y hx hy hfits hother
  cases front with
  | nil =>
    have hnone (z : List Char) (h : reach (escape? z) ≤ 0) : escape? z = none := by
      rcases he : escape? z with _ | ⟨v, n⟩
      · rfl
      · rw [he, reach_some] at h
        have := (escape?_width he).1
        omega
    rw [List.nil_append, List.nil_append, hnone x hfits]
    rcases hother with hother | ⟨c, xs, ys, hc, -, -, rfl⟩
    · exact hnone y hother
    · exact escape?_eq_none (by simpa using ne_backslash_of_isStop hc)
  | cons c front =>
    by_cases hc : c = '\\'
    · subst hc
      cases front with
      | nil =>
        have hlast := escape?_last hx hfits
        rw [List.cons_append, List.cons_append, List.nil_append, List.nil_append, hlast.2]
        rcases hother with hother | halike
        · exact (escape?_last hy hother).2
        · have hhead := halike.head?
          obtain ⟨d, xs, ys, hd, -, rfl, rfl⟩ := halike
          have hline : d = '\n' := by simpa using hlast.1
          rw [hline] at hd
          exact absurd hd nofun
      | cons d front =>
        simp only [List.cons_append, escape?_backslash] at hfits hother ⊢
        by_cases hd : d = '\n'
        · rw [if_pos hd, if_pos hd]
        · rw [if_neg hd] at hfits hother ⊢
          rw [if_neg hd]
          by_cases hhex : isHexDigit d = true
          · have hhere (z : List Char) (h : (hexEscape (d :: (front ++ z))).2 ≤ front.length + 2) :
                hexEscape (d :: (front ++ z)) = hexEscape (d :: front) :=
              hexEscape_here (d :: front) z h
            rw [if_pos hhex] at hfits hother ⊢
            rw [if_pos hhex]
            have hy' : (hexEscape (d :: (front ++ y))).2 ≤ front.length + 2 := by
              rcases hother with hother | halike
              · exact hother
              · have hstop := local_hexPart.length_le_of_alike (d :: front) halike
                rw [hexEscape_snd]
                simp only [List.cons_append, List.length_cons] at hstop
                omega
            rw [hhere x hfits, hhere y hy']
          · rw [if_neg hhex, if_neg hhex]
    · have hnone (cs : List Char) : escape? (c :: cs) = none := escape?_eq_none (by simpa using hc)
      rw [List.cons_append, List.cons_append, hnone, hnone]

theorem escapeOr_eq (p : Char → Bool) :
    escapeOr p = firstOf [escape?, char fun c => if p c then some c else none] := by
  funext cs
  unfold escapeOr
  rcases he : escape? cs with _ | r
  · rcases cs with _ | ⟨c, cs⟩
    · simp [firstOf, he, char]
    · by_cases hc : p c = true <;> simp [firstOf, he, char, hc]
  · simp [firstOf, he]

theorem steady_escapeOr (p : Char → Bool) : Steady (escapeOr p) := by
  rw [escapeOr_eq]
  refine steady_firstOf fun s hs => ?_
  simp only [List.mem_cons, List.not_mem_nil, or_false] at hs
  rcases hs with rfl | rfl
  · exact steady_escape?
  · exact steady_char _

/-! ## Runs of pieces -/

theorem min_reach_le_width {α : Type} (step : Step Char α) (cs : List Char) :
    min (reach (step cs)) cs.length ≤ Piece.width (segment step cs) := by
  by_cases hcs : cs = []
  · simp [hcs]
  rcases h : step cs with _ | ⟨v, _ | n⟩
  · simp
  · simp
  · rw [segment_of_step step hcs h n.succ_pos]
    simp

theorem reach_le_of_width {α : Type} {step : Step Char α} {front x : List Char} (hx : x ≠ [])
    (h : Piece.width (segment step (front ++ x)) ≤ front.length) :
    reach (step (front ++ x)) ≤ front.length := by
  have hmin := (min_reach_le_width step (front ++ x)).trans h
  have hpos := List.length_pos_iff.2 hx
  rw [List.length_append] at hmin
  omega

theorem reach_of_segment_nil {α : Type} {step : Step Char α} {cs : List Char} (hcs : cs ≠ [])
    (h : segment step cs = []) : reach (step cs) = 0 := by
  have hmin := min_reach_le_width step cs
  have hpos := List.length_pos_iff.2 hcs
  rw [h, Piece.width_nil] at hmin
  omega

theorem segment_nil_of_reach {α : Type} {step : Step Char α} {cs : List Char}
    (h : reach (step cs) = 0) : segment step cs = [] := by
  rcases hs : step cs with _ | ⟨v, n⟩
  · exact segment_of_none step hs
  · rw [hs, reach_some] at h
    exact segment_of_zero step (h ▸ hs)

/-- Reading piece by piece is as steady as the reading of one piece. -/
theorem segment_steady {α : Type} {step : Step Char α} (h : Steady step) {front x y : List Char}
    (hx : x ≠ []) (hy : y ≠ []) (hfits : Piece.width (segment step (front ++ x)) ≤ front.length)
    (hother : Piece.width (segment step (front ++ y)) ≤ front.length ∨ Alike x y) :
    segment step (front ++ y) = segment step (front ++ x) := by
  induction hl : front.length using Nat.strongRecOn generalizing front with
  | ind l ih =>
    have hstep := h front x y hx hy (reach_le_of_width hx hfits)
      (hother.imp_left (reach_le_of_width hy))
    have hne (z : List Char) (hz : z ≠ []) : front ++ z ≠ [] := by simp [hz]
    rcases segment_cases step (front ++ x) with hnil | ⟨v, n, -, hn, hread, hcons⟩
    · have hzero := reach_of_segment_nil (hne x hx) hnil
      rw [← hstep] at hzero
      rw [hnil, segment_nil_of_reach hzero]
    · have hle := reach_le_of_width hx hfits
      rw [hread] at hstep hle
      rw [reach_some] at hle
      have hpieces (z : List Char) (hz : z ≠ []) (hr : step (front ++ z) = some (v, n)) :
          segment step (front ++ z) =
            ⟨v, front.take n⟩ :: segment step (front.drop n ++ z) := by
        rw [segment_of_step step (hne z hz) hr hn, List.take_append_of_le_length hle,
          List.drop_append_of_le_length hle]
      have hwidth (z : List Char) (hz : z ≠ []) (hr : step (front ++ z) = some (v, n))
          (hle' : Piece.width (segment step (front ++ z)) ≤ front.length) :
          Piece.width (segment step (front.drop n ++ z)) ≤ (front.drop n).length := by
        rw [hpieces z hz hr, Piece.width_cons, List.length_take, Nat.min_eq_left hle] at hle'
        rw [List.length_drop]
        omega
      rw [hpieces x hx hread, hpieces y hy hstep]
      congr 1
      exact ih _ (by rw [List.length_drop]; omega) (hwidth x hx hread hfits)
        (hother.imp_left (hwidth y hy hstep)) rfl

/-- Pieces that are read again in front of another text, with none behind them, are the pieces
there. -/
theorem segment_exchange {α : Type} {step : Step Char α} {front x y : List Char}
    (hx : x ≠ []) (hfits : Piece.width (segment step (front ++ x)) ≤ front.length)
    (hstep : ∀ more v n, step (more ++ x) = some (v, n) → 0 < n → n ≤ more.length →
      front.drop (Piece.width (segment step (front ++ x))) <:+ more.drop n →
        step (more ++ y) = some (v, n))
    (hend : segment step (front.drop (Piece.width (segment step (front ++ x))) ++ y) = []) :
    segment step (front ++ y) = segment step (front ++ x) := by
  induction hl : front.length using Nat.strongRecOn generalizing front with
  | ind l ih =>
    rcases segment_cases step (front ++ x) with hnil | ⟨v, n, -, hn, hread, hcons⟩
    · rw [hnil] at hend ⊢
      exact hend
    · have hle := reach_le_of_width hx hfits
      rw [hread, reach_some] at hle
      have hwidth : Piece.width (segment step (front ++ x)) =
          n + Piece.width (segment step (front.drop n ++ x)) := by
        rw [hcons, Piece.width_cons, List.take_append_of_le_length hle, List.length_take,
          Nat.min_eq_left hle, List.drop_append_of_le_length hle]
      rw [hwidth, ← List.drop_drop] at hstep hend
      rw [hwidth] at hfits
      have hsuffix := List.drop_suffix
        (Piece.width (segment step (front.drop n ++ x))) (front.drop n)
      have hread' := hstep front v n hread hn hle hsuffix
      have hne : front ++ y ≠ [] := by
        have hpos : 0 < front.length := hn.trans_le hle
        exact List.append_ne_nil_of_left_ne_nil (List.length_pos_iff.1 hpos) y
      rw [hcons, segment_of_step step hne hread' hn, List.take_append_of_le_length hle,
        List.take_append_of_le_length hle, List.drop_append_of_le_length hle,
        List.drop_append_of_le_length hle]
      congr 1
      refine ih _ ?_ ?_ hstep hend rfl
      · rw [List.length_drop]
        omega
      · rw [List.length_drop]
        omega

/-! ## Names -/

theorem name_steady {front x y : List Char} (hx : x ≠ []) (hy : y ≠ [])
    (hfits : (name (front ++ x)).2 ≤ front.length)
    (hother : (name (front ++ y)).2 ≤ front.length ∨ Alike x y) :
    name (front ++ y) = name (front ++ x) := by
  have hpieces := segment_steady (steady_escapeOr isNameChar) hx hy hfits hother
  simp only [name, hpieces]

theorem startsPlainName_cons (c : Char) (cs : List Char) :
    startsPlainName (c :: cs) = if c = '\\' then cs.head?.any (· != '\n') else isNameStart c := by
  by_cases hc : c = '\\'
  · subst hc
    rw [if_pos rfl]
    cases cs with
    | nil => rfl
    | cons d cs =>
      by_cases hd : d = '\n'
      · subst hd
        rfl
      · by_cases hhex : isHexDigit d = true <;>
          simp [startsPlainName, escape?_backslash, hd, hhex]
  · rw [if_neg hc, startsPlainName, escape?_eq_none (by simpa using hc)]
    rfl

theorem startsIdent_cons (c : Char) (cs : List Char) :
    startsIdent (c :: cs) =
      if c = '-' then cs.head? == some '-' || startsPlainName cs else startsPlainName (c :: cs) := by
  by_cases hc : c = '-'
  · subst hc
    rfl
  · rw [if_neg hc]
    exact startsIdent.eq_2 _ fun ds heq => hc (List.cons.inj heq).1

theorem startsPlainName_append {cs : List Char} (h : startsPlainName cs = true) (x : List Char) :
    startsPlainName (cs ++ x) = true := by
  cases cs with
  | nil => exact absurd h nofun
  | cons c cs =>
    rw [List.cons_append, startsPlainName_cons]
    rw [startsPlainName_cons] at h
    cases cs with
    | nil => split at h <;> simp_all
    | cons d cs => exact h

theorem startsIdent_append {cs : List Char} (h : startsIdent cs = true) (x : List Char) :
    startsIdent (cs ++ x) = true := by
  cases cs with
  | nil => exact absurd h nofun
  | cons c cs =>
    rw [List.cons_append, startsIdent_cons]
    rw [startsIdent_cons] at h
    split
    · next hc =>
      rw [if_pos hc] at h
      cases cs with
      | nil => exact absurd h nofun
      | cons d cs =>
        rw [Bool.or_eq_true] at h ⊢
        exact h.imp_right fun hplain => startsPlainName_append hplain x
    · next hc =>
      rw [if_neg hc] at h
      exact startsPlainName_append h x

/-- A name reaches as far as an escape at its start. -/
theorem reach_escape?_le_name (cs : List Char) : reach (escape? cs) ≤ (name cs).2 := by
  rcases he : escape? cs with _ | ⟨v, n⟩
  · exact Nat.zero_le _
  · have hwidth := escape?_width he
    have hstep : escapeOr isNameChar cs = some (v, n) := by
      unfold escapeOr
      rw [he]
    have hmin : min n cs.length ≤ (name cs).2 := by
      have h := min_reach_le_width (escapeOr isNameChar) cs
      rwa [hstep] at h
    rw [reach_some]
    omega

/-- A name that stays in front of what follows starts there. -/
theorem startsPlainName_here {front x : List Char} (h : startsPlainName (front ++ x) = true)
    (hlength : (name (front ++ x)).2 ≤ front.length) : startsPlainName front = true := by
  cases front with
  | nil =>
    have hident : startsIdent x = true := by
      cases x with
      | nil => exact absurd h nofun
      | cons c x =>
        rw [List.nil_append] at h
        rw [startsIdent_cons, h]
        split
        · next hc =>
          subst hc
          exact absurd h nofun
        · rfl
    exact absurd (name_width_pos hident) (by simpa using hlength)
  | cons c front =>
    rw [List.cons_append, startsPlainName_cons] at h
    rw [startsPlainName_cons]
    cases front with
    | cons d front => exact h
    | nil =>
      by_cases hc : c = '\\'
      · subst hc
        rw [if_pos rfl] at h
        have hx : x ≠ [] := by
          rintro rfl
          exact absurd h nofun
        have hline := (escape?_last hx ((reach_escape?_le_name _).trans hlength)).1
        rw [List.nil_append, hline] at h
        exact absurd h nofun
      · rw [if_neg hc] at h ⊢
        exact h

theorem name_cons {c : Char} (hc : isNameChar c = true) (cs : List Char) :
    (name (c :: cs)).2 = 1 + (name cs).2 := by
  have hslash : c ≠ '\\' := by
    rintro rfl
    exact absurd hc nofun
  have hstep : escapeOr isNameChar (c :: cs) = some (c, 1) := by
    unfold escapeOr
    rw [escape?_eq_none (by simpa using hslash)]
    exact if_pos hc
  simp only [name, segment_of_step _ (List.cons_ne_nil c cs) hstep Nat.one_pos, Piece.width,
    Piece.covered, List.flatMap_cons, List.length_append]
  rfl

theorem startsIdent_here {front x : List Char} (h : startsIdent (front ++ x) = true)
    (hlength : (name (front ++ x)).2 ≤ front.length) : startsIdent front = true := by
  cases front with
  | nil => exact absurd (name_width_pos h) (by simpa using hlength)
  | cons c front =>
    rw [List.cons_append, startsIdent_cons] at h
    rw [startsIdent_cons]
    by_cases hc : c = '-'
    · subst hc
      rw [List.cons_append, name_cons rfl, List.length_cons] at hlength
      rw [if_pos rfl, Bool.or_eq_true] at h ⊢
      have hlength' : (name (front ++ x)).2 ≤ front.length := by omega
      rcases h with h | h
      · cases front with
        | nil =>
          have hx : startsIdent ('-' :: x) = true := by
            obtain ⟨ds, rfl⟩ := List.head?_eq_some_iff.1 (by simpa using h)
            rfl
          have hpos : 0 < (name x).2 := by
            obtain ⟨ds, rfl⟩ := List.head?_eq_some_iff.1 (by simpa using h)
            rw [name_cons rfl]
            omega
          exact absurd hpos (by simpa using hlength')
        | cons d front => exact .inl h
      · exact .inr (startsPlainName_here h hlength')
    · rw [if_neg hc] at h ⊢
      exact startsPlainName_here h hlength

theorem startsPlainName_alike {x y : List Char} (h : Alike x y) (front : List Char) :
    startsPlainName (front ++ y) = startsPlainName (front ++ x) := by
  have hhead := h.head?
  obtain ⟨c, xs, ys, hc, -, rfl, rfl⟩ := h
  cases front with
  | nil =>
    simp only [List.nil_append, startsPlainName_cons, if_neg (ne_backslash_of_isStop hc)]
  | cons d front =>
    rw [List.cons_append, List.cons_append, startsPlainName_cons, startsPlainName_cons]
    cases front <;> rfl

theorem startsIdent_alike {x y : List Char} (h : Alike x y) (front : List Char) :
    startsIdent (front ++ y) = startsIdent (front ++ x) := by
  have hplain := startsPlainName_alike h
  cases front with
  | nil =>
    obtain ⟨c, xs, ys, hc, -, rfl, rfl⟩ := h
    have hhyphen : c ≠ '-' := by
      rintro rfl
      exact absurd hc nofun
    have hnil := hplain []
    rw [List.nil_append, List.nil_append] at hnil ⊢
    rw [startsIdent_cons, startsIdent_cons, if_neg hhyphen, if_neg hhyphen, hnil]
  | cons d front =>
    have hhead : (front ++ y).head? = (front ++ x).head? := by
      cases front with
      | nil => exact h.head?.symm
      | cons e front => rfl
    have hcons := hplain (d :: front)
    rw [List.cons_append, List.cons_append] at hcons ⊢
    rw [startsIdent_cons, startsIdent_cons, hhead, hplain front, hcons]

/-- An identifier. -/
def identStep : Step Char String := fun cs => if startsIdent cs then some (name cs) else none

/-- A name that may start with a digit. -/
def nameStep : Step Char String := fun cs => if (name cs).2 = 0 then none else some (name cs)

theorem steady_identStep : Steady identStep := by
  have hname : Steady fun cs => some (name cs) := fun front x y hx hy hfits hother =>
    congrArg some (name_steady hx hy hfits hother)
  exact hname.guarded (fun _ _ w _ h hz => startsIdent_append (startsIdent_here h hz) w)
    fun front _ _ halike h => startsIdent_alike halike front ▸ h

theorem steady_nameStep : Steady nameStep := by
  have hreach (cs : List Char) : reach (nameStep cs) = (name cs).2 := by
    unfold nameStep
    split
    · next h => exact h.symm
    · rfl
  intro front x y hx hy hfits hother
  rw [hreach] at hfits hother
  simp only [nameStep, name_steady hx hy hfits hother]

/-! ## Runs of characters -/

/-- A fixed text without signs. -/
def literal {α : Type} (text : List Char) (v : α) : Step Char α := fun cs =>
  if text <+: cs then some (v, text.length) else none

/-- The values of all pieces. -/
def pieces {α : Type} (step : Step Char α) : Step Char (List α) := fun cs =>
  some (Piece.values (segment step cs), Piece.width (segment step cs))

theorem isPrefix_here {text front x : List Char} (h : text <+: front ++ x)
    (hlength : text.length ≤ front.length) : text <+: front :=
  List.prefix_of_prefix_length_le h (List.prefix_append front x) hlength

theorem steady_literal {α : Type} {text : List Char} (htext : text.any isStop = false) (v : α) :
    Steady (literal text v) := by
  have hsame : Steady fun _ => some (v, text.length) := fun _ _ _ _ _ _ _ => rfl
  refine hsame.guarded (fun front z w _ h hz =>
    (isPrefix_here h hz).trans (List.prefix_append front w)) ?_
  rintro front _ _ ⟨c, xs, ys, hc, -, rfl, rfl⟩ h
  have hlength : text.length ≤ front.length := by
    by_contra hlong
    obtain ⟨more, hmore⟩ := h
    have hat : (text ++ more)[front.length]? = some c := by
      rw [hmore]
      simp
    rw [List.getElem?_append_left (by omega)] at hat
    exact List.any_eq_false.1 htext c (List.mem_of_getElem? hat) hc
  exact (isPrefix_here h hlength).trans (List.prefix_append front _)

theorem steady_pieces {α : Type} {step : Step Char α} (h : Steady step) : Steady (pieces step) := by
  intro front x y hx hy hfits hother
  simp only [pieces, segment_steady h hx hy hfits hother]

theorem local_blanks : Local (List.takeWhile isBlank) :=
  Local.takeWhile fun _ => isStop_eq_false (by decide)

/-! ## Strings -/

theorem stringStep_eq (quote : Char) : stringStep quote = firstOf [literal ['\\', '\n'] none,
    mapped some (escapeOr fun c => c != quote && c != '\n')] := by
  funext cs
  unfold stringStep
  split
  · next cs =>
    have h : ['\\', '\n'] <+: '\\' :: '\n' :: cs := ⟨cs, rfl⟩
    simp [firstOf, literal, h]
  · next hnot =>
    have h : ¬['\\', '\n'] <+: cs := fun h => h.elim fun ds hds => hnot ds hds.symm
    simp only [firstOf, literal, if_neg h, mapped]
    rcases escapeOr (fun c => c != quote && c != '\n') cs with _ | r <;> rfl

theorem steady_stringStep (quote : Char) : Steady (stringStep quote) := by
  rw [stringStep_eq]
  refine steady_firstOf fun s hs => ?_
  simp only [List.mem_cons, List.not_mem_nil, or_false] at hs
  rcases hs with rfl | rfl
  · exact steady_literal (by decide) none
  · exact (steady_escapeOr _).map some

/-- What ends a string: its quote, a line end, which is left, or the end of the text. -/
def stringEnd (quote : Char) (content : List (Option Char)) : Step Char TokenKind
  | [] => some (.quotedString (String.ofList (content.filterMap id)), 0)
  | c :: _ =>
    if c = quote then some (.quotedString (String.ofList (content.filterMap id)), 1)
    else some (.badString (String.ofList (content.filterMap id)), 0)

theorem steady_stringEnd (quote : Char) (content : List (Option Char)) :
    Steady (stringEnd quote content) := by
  intro front x y hx hy hfits hother
  cases front with
  | cons c front => rfl
  | nil =>
    obtain ⟨c, x, rfl⟩ := List.exists_cons_of_ne_nil hx
    obtain ⟨d, y, rfl⟩ := List.exists_cons_of_ne_nil hy
    have hopen (e : Char) (z : List Char)
        (h : reach (stringEnd quote content (e :: z)) ≤ 0) : e ≠ quote := by
      rintro rfl
      simp [stringEnd] at h
    have hd : d ≠ quote := by
      rcases hother with hother | halike
      · exact hopen d y hother
      · obtain rfl : c = d := by simpa using halike.head?
        exact hopen c x hfits
    simp only [List.nil_append, stringEnd, if_neg (hopen c x hfits), if_neg hd]

/-- A string behind its opening quote. -/
def stringBody (quote : Char) : Step Char TokenKind :=
  chain (pieces (stringStep quote)) (stringEnd quote)

theorem stringEnd_isSome (quote : Char) (content : List (Option Char)) (cs : List Char) :
    (stringEnd quote content cs).isSome := by
  cases cs with
  | nil => rfl
  | cons c cs => by_cases hc : c = quote <;> simp [stringEnd, hc]

theorem stringBody_isSome (quote : Char) (cs : List Char) : (stringBody quote cs).isSome :=
  chain_isSome rfl (stringEnd_isSome quote)

theorem steady_stringBody (quote : Char) : Steady (stringBody quote) :=
  (steady_pieces (steady_stringStep quote)).chain (steady_stringEnd quote) (stringEnd_isSome quote)

theorem string_eq (quote : Char) (cs : List Char) :
    some (string quote cs) =
      (stringBody quote cs).map fun r => (r.1, 1 + r.2) := by
  simp only [stringBody, chain, pieces, Option.bind_some, string]
  rcases cs.drop (Piece.width (segment (stringStep quote) cs)) with _ | ⟨c, ds⟩
  · rfl
  · by_cases hc : c = quote
    · simp [stringEnd, hc]
      omega
    · simp [stringEnd, hc]

/-! ## Addresses -/

/-- The parenthesis that closes a broken address, unless the text ends. -/
def closer : Step Char Unit := fun cs => some ((), (cs.take 1).length)

/-- A broken address up to its parenthesis. -/
def brokenUrl (address : String) : Step Char TokenKind :=
  chain (pieces (escapeOr fun c => c != ')')) fun _ => mapped (fun _ => .badUrl address) closer

/-- What follows the characters of an address and the blanks behind them. -/
def urlEnd (address : String) : Step Char TokenKind
  | [] => some (.url address, 0)
  | c :: cs => if c = ')' then some (.url address, 1) else brokenUrl address (c :: cs)

/-- An address behind the blanks at its start. -/
def urlRest : Step Char TokenKind :=
  chain (pieces (escapeOr isUrlChar)) fun address =>
    chain (runOf (List.takeWhile isBlank)) fun _ => urlEnd (String.ofList address)

/-- An address behind its opening parenthesis. -/
def urlBody : Step Char TokenKind := chain (runOf (List.takeWhile isBlank)) fun _ => urlRest

theorem brokenUrl_eq (address : String) (cs : List Char) :
    brokenUrl address cs = some (.badUrl address, brokenUrlWidth cs) := rfl

theorem url_eq (cs : List Char) : some (url cs) = urlBody cs := by
  simp only [urlBody, urlRest, chain, runOf, pieces, Option.bind_some, url, List.drop_drop,
    runLength]
  rcases cs.drop (_ + _) with _ | ⟨c, ds⟩
  · simp [urlEnd, Nat.add_assoc]
  · by_cases hc : c = ')'
    · simp [urlEnd, hc, Nat.add_assoc]
    · simp [urlEnd, hc, brokenUrl_eq, Nat.add_assoc]

theorem steady_closer : Steady closer := by
  intro front x y hx hy hfits hother
  cases front with
  | cons c front => rfl
  | nil =>
    obtain ⟨c, x, rfl⟩ := List.exists_cons_of_ne_nil hx
    exact absurd hfits (by simp [closer])

theorem steady_brokenUrl (address : String) : Steady (brokenUrl address) :=
  (steady_pieces (steady_escapeOr _)).chain (fun _ => steady_closer.map _) fun _ _ => rfl

theorem urlEnd_pos (address : String) {cs : List Char} (hcs : cs ≠ []) :
    0 < reach (urlEnd address cs) := by
  obtain ⟨c, cs, rfl⟩ := List.exists_cons_of_ne_nil hcs
  by_cases hc : c = ')'
  · simp [urlEnd, hc]
  · simp only [urlEnd, if_neg hc, brokenUrl_eq, reach_some, brokenUrlWidth]
    rcases Piece.width (segment (escapeOr fun c => c != ')') (c :: cs)) with _ | n
    · simp
    · omega

theorem steady_urlEnd (address : String) : Steady (urlEnd address) := by
  intro front x y hx hy hfits hother
  cases front with
  | nil => exact absurd (urlEnd_pos address hx) (by simpa using hfits)
  | cons c front =>
    by_cases hc : c = ')'
    · simp [urlEnd, hc]
    · simp only [List.cons_append, urlEnd, if_neg hc] at hfits hother ⊢
      exact steady_brokenUrl address (c :: front) x y hx hy hfits hother

theorem urlEnd_isSome (address : String) (cs : List Char) : (urlEnd address cs).isSome := by
  cases cs with
  | nil => rfl
  | cons c cs => by_cases hc : c = ')' <;> simp [urlEnd, hc, brokenUrl_eq]

theorem urlRest_isSome (cs : List Char) : (urlRest cs).isSome :=
  chain_isSome rfl fun _ _ => chain_isSome rfl fun _ _ => urlEnd_isSome _ _

theorem urlRest_pos {cs : List Char} (hcs : cs ≠ []) : 0 < reach (urlRest cs) := by
  rw [urlRest, reach_chain rfl fun _ _ => chain_isSome rfl fun _ _ => urlEnd_isSome _ _,
    reach_chain rfl fun _ _ => urlEnd_isSome _ _]
  by_contra hzero
  have hpieces : Piece.width (segment (escapeOr isUrlChar) cs) = 0 := by omega
  have hgap : (cs.takeWhile isBlank).length = 0 := by
    rw [hpieces, List.drop_zero] at hzero
    omega
  rw [hpieces, List.drop_zero, hgap, List.drop_zero] at hzero
  have hpos := urlEnd_pos (String.ofList (Piece.values (segment (escapeOr isUrlChar) cs))) hcs
  omega

theorem steady_urlBody : Steady urlBody := by
  have hend (address : List Char) :
      Steady (chain (runOf (List.takeWhile isBlank)) fun _ => urlEnd (String.ofList address)) :=
    (steady_runOf local_blanks).chain (fun _ => steady_urlEnd _) fun _ _ => urlEnd_isSome _ _
  have hrest : Steady urlRest := (steady_pieces (steady_escapeOr _)).chain hend
    fun _ _ => chain_isSome rfl fun _ _ => urlEnd_isSome _ _
  exact (steady_runOf local_blanks).chain (fun _ => hrest) fun _ => urlRest_isSome

theorem startsUrl_eq (cs : List Char) :
    startsUrl cs = !((cs.dropWhile isBlank).head?.any fun c => c == '"' || c == '\'') := rfl

theorem dropWhile_append_of_drop {p : Char → Bool} {front : List Char} {c : Char} {cs : List Char}
    (h : front.dropWhile p = c :: cs) (x : List Char) :
    ((front ++ x).dropWhile p).head? = some c := by
  rw [List.dropWhile_append, h]
  rfl

theorem startsUrl_alike {x y : List Char} (h : Alike x y) (front : List Char) :
    startsUrl (front ++ y) = startsUrl (front ++ x) := by
  obtain ⟨c, xs, ys, hc, -, rfl, rfl⟩ := h
  have hblank : isBlank c = false := by
    by_contra hblank
    rw [isStop_eq_false (by decide) (Bool.not_eq_false _ ▸ hblank)] at hc
    exact absurd hc nofun
  have hstart (zs : List Char) : ((c :: zs).dropWhile isBlank).head? = some c := by
    simp [hblank]
  rcases hfront : front.dropWhile isBlank with _ | ⟨d, ds⟩
  · simp only [startsUrl_eq, List.dropWhile_append, hfront, List.isEmpty_nil, if_true, hstart]
  · simp only [startsUrl_eq, dropWhile_append_of_drop hfront]

/-- An address that stays in front of what follows has more than blanks there. -/
theorem startsUrl_here {front x : List Char} (hx : x ≠ [])
    (hlength : reach (urlBody (front ++ x)) ≤ front.length) (y : List Char) :
    startsUrl (front ++ y) = startsUrl (front ++ x) := by
  rcases hfront : front.dropWhile isBlank with _ | ⟨d, ds⟩
  · exfalso
    have hall : ∀ c ∈ front, isBlank c = true := List.dropWhile_eq_nil_iff.1 hfront
    have hindent : (front ++ x).takeWhile isBlank = front ++ x.takeWhile isBlank :=
      List.takeWhile_append_of_pos hall
    rw [urlBody, reach_chain rfl fun _ => urlRest_isSome, hindent, List.length_append] at hlength
    have hnone : x.takeWhile isBlank = [] := List.eq_nil_of_length_eq_zero (by omega)
    rw [hnone, List.length_nil, Nat.add_zero, List.drop_left] at hlength
    have hpos := urlRest_pos hx
    omega
  · simp only [startsUrl_eq, dropWhile_append_of_drop hfront]

/-- An address without quotes, if one starts here. -/
def urlStep : Step Char TokenKind := fun cs => if startsUrl cs then urlBody cs else none

theorem steady_urlStep : Steady urlStep :=
  steady_urlBody.guarded (fun _ _ w hz h hle => (startsUrl_here hz hle w).trans h)
    fun front _ _ halike h => startsUrl_alike halike front ▸ h

/-! ## Comments -/

theorem commentContent_cons (c : Char) (cs : List Char) :
    commentContent (c :: cs) =
      if c = '*' ∧ cs.head? = some '/' then [] else c :: commentContent cs := by
  split
  · next h =>
    obtain ⟨ds, rfl⟩ := List.head?_eq_some_iff.1 h.2
    rw [h.1]
    rfl
  · next h =>
    refine commentContent.eq_2 c cs ?_
    rintro ds rfl rfl
    exact h ⟨rfl, rfl⟩

/-- A comment ends at the first closing sign, whatever follows. -/
theorem commentContent_close (cs x y : List Char) :
    commentContent (cs ++ '*' :: '/' :: y) = commentContent (cs ++ '*' :: '/' :: x) := by
  induction cs with
  | nil => rfl
  | cons c cs ih =>
    rw [List.cons_append, List.cons_append, commentContent_cons, commentContent_cons, ih]
    cases cs <;> rfl

/-- A comment that stays in front of what follows is closed there. -/
theorem comment_here (front : List Char) {x : List Char} (hx : x ≠ [])
    (h : (comment (front ++ x)).2 ≤ front.length + 2) (y : List Char) :
    comment (front ++ y) = comment (front ++ x) := by
  obtain ⟨content, hcontent⟩ : ∃ content, commentContent (front ++ x) = content := ⟨_, rfl⟩
  have hpos := List.length_pos_iff.2 hx
  have hcases := commentContent_cases (front ++ x)
  rw [hcontent] at hcases
  rcases hcases with hall | ⟨ds, hds⟩
  · have hlength := congrArg List.length hall
    rw [comment, hcontent] at h
    simp only [List.length_append] at h hlength
    omega
  have hlength : (content ++ ['*', '/']).length ≤ front.length := by
    simp only [comment, hcontent] at h
    simp only [hds, List.drop_left, List.take_succ_cons, List.take_zero, List.length_cons,
      List.length_nil] at h
    rw [List.length_append, List.length_cons, List.length_cons, List.length_nil]
    omega
  obtain ⟨more, rfl⟩ := isPrefix_here (x := x) ⟨ds, by rw [hds]; simp⟩ hlength
  have hsplit (z : List Char) :
      content ++ ['*', '/'] ++ more ++ z = content ++ '*' :: '/' :: (more ++ z) := by simp
  rw [hsplit] at hcontent ⊢
  rw [hsplit]
  have hsame := commentContent_close content (more ++ x) (more ++ y)
  rw [hcontent] at hsame
  simp only [comment, hcontent, hsame, List.drop_left, List.take_succ_cons, List.take_zero]

/-- A comment behind its opening sign. -/
def commentBody : Step Char TokenKind := fun cs => some ((comment cs).1, (comment cs).2 - 2)

theorem steady_commentBody : Steady commentBody := by
  intro front x y hx hy hfits hother
  simp only [commentBody, reach_some] at hfits
  simp only [commentBody, comment_here front hx (by omega) y]

/-! ## All tokens -/

/-- An address, a function or an identifier. -/
def identLikeStep : Step Char TokenKind := chain identStep fun value => firstOf
  [if sameLetters value "url" then behind '(' urlStep else fun _ => none,
    behind '(' (pass (.function value)), pass (.ident value)]

def hashStep : Step Char TokenKind := behind '#' (firstOf
  [mapped .idHash identStep, mapped .hash nameStep, pass (.delim '#')])

def atStep : Step Char TokenKind := behind '@' (firstOf
  [mapped .atKeyword identStep, pass (.delim '@')])

def numberStep : Step Char TokenKind := chain numeralStep fun digits => firstOf
  [mapped (.dimension (numeralValue digits)) identStep,
    behind '%' (pass (.percentage (numeralValue digits))), pass (.number (numeralValue digits))]

def blankStep : Step Char TokenKind := chain (char fun c => if isBlank c then some () else none)
  fun _ => mapped (fun _ => .whitespace) (runOf (List.takeWhile isBlank))

/-- The readers of tokens, each for the texts that those before it leave. -/
def tokenSteps : List (Step Char TokenKind) :=
  [behind '/' (behind '*' commentBody), char punctuation?, blankStep, behind '"' (stringBody '"'),
    behind '\'' (stringBody '\''), hashStep, atStep, numberStep,
    literal ['-', '-', '>'] .commentClose, literal ['<', '!', '-', '-'] .commentOpen,
    identLikeStep, char fun c => some (.delim c)]

theorem identLike_eq {cs : List Char} (h : startsIdent cs = true) :
    identLikeStep cs = some (identLike cs) := by
  have hname : identStep cs = some (name cs) := if_pos h
  rcases hn : name cs with ⟨value, width⟩
  rw [hn] at hname
  simp only [identLikeStep, chain, hname, Option.bind_some, identLike, hn]
  rcases hdrop : cs.drop width with _ | ⟨c, after⟩
  · by_cases hurl : sameLetters value "url" <;> simp [firstOf, behind, pass, hurl]
  · by_cases hc : c = '('
    · subst hc
      by_cases hurl : sameLetters value "url"
      · by_cases hstarts : startsUrl after = true
        · simp [firstOf, behind, pass, hurl, urlStep, hstarts, ← url_eq, Nat.add_assoc]
        · simp [firstOf, behind, pass, hurl, urlStep, hstarts]
      · simp [firstOf, behind, pass, hurl]
    · by_cases hurl : sameLetters value "url" <;> simp [firstOf, behind, pass, hurl, hc]

theorem steady_identLikeStep : Steady identLikeStep := by
  refine steady_identStep.chain (fun value => steady_firstOf fun s hs => ?_) fun value cs => ?_
  · simp only [List.mem_cons, List.not_mem_nil, or_false] at hs
    rcases hs with rfl | rfl | rfl
    · split
      · exact steady_urlStep.behind_plain rfl
      · exact fun _ _ _ _ _ _ _ => rfl
    · exact (steady_pass _).behind_plain rfl
    · exact steady_pass _
  · simp [firstOf, pass]

theorem steady_hashStep : Steady hashStep := by
  refine (steady_firstOf fun s hs => ?_).behind_plain rfl
  simp only [List.mem_cons, List.not_mem_nil, or_false] at hs
  rcases hs with rfl | rfl | rfl
  · exact steady_identStep.map _
  · exact steady_nameStep.map _
  · exact steady_pass _

theorem steady_atStep : Steady atStep := by
  refine (steady_firstOf fun s hs => ?_).behind_plain rfl
  simp only [List.mem_cons, List.not_mem_nil, or_false] at hs
  rcases hs with rfl | rfl
  · exact steady_identStep.map _
  · exact steady_pass _

theorem steady_numberStep : Steady numberStep := by
  refine steady_numeralStep.chain (fun digits => steady_firstOf fun s hs => ?_) fun digits cs => ?_
  · simp only [List.mem_cons, List.not_mem_nil, or_false] at hs
    rcases hs with rfl | rfl | rfl
    · exact steady_identStep.map _
    · exact (steady_pass _).behind_plain rfl
    · exact steady_pass _
  · simp [firstOf, pass]

theorem steady_blankStep : Steady blankStep :=
  (steady_char _).chain (fun _ => (steady_runOf local_blanks).map _) fun _ _ => rfl

theorem steady_tokenSteps : ∀ s ∈ tokenSteps, Steady s := by
  intro s hs
  simp only [tokenSteps, List.mem_cons, List.not_mem_nil, or_false] at hs
  rcases hs with rfl | rfl | rfl | rfl | rfl | rfl | rfl | rfl | rfl | rfl | rfl | rfl
  · refine (steady_commentBody.behind_plain rfl).behind fun xs ys halike => ?_
    -- A slash that both texts start with opens a comment.
    obtain ⟨c, _, _, -, hslash, hx, -⟩ := halike
    obtain ⟨rfl, rfl⟩ := List.cons.inj hx
    obtain ⟨xs, rfl⟩ := List.head?_eq_some_iff.1 (hslash rfl).1
    rfl
  · exact steady_char _
  · exact steady_blankStep
  · exact (steady_stringBody _).behind fun xs _ _ => stringBody_isSome '"' xs
  · exact (steady_stringBody _).behind fun xs _ _ => stringBody_isSome '\'' xs
  · exact steady_hashStep
  · exact steady_atStep
  · exact steady_numberStep
  · exact steady_literal (by decide) _
  · exact steady_literal (by decide) _
  · exact steady_identLikeStep
  · exact steady_char _

theorem hash_eq (cs : List Char) : hashStep ('#' :: cs) = some (hash cs) := by
  rcases hn : name cs with ⟨value, width⟩
  have hwidth : (name cs).2 = width := by rw [hn]
  by_cases hident : startsIdent cs = true
  · have hpos := name_width_pos hident
    have hzero : width ≠ 0 := by omega
    simp [hashStep, behind, firstOf, mapped, identStep, hident, hash, hn, hzero]
  · by_cases hzero : width = 0
    · simp [hashStep, behind, firstOf, mapped, identStep, hident, hash, hn, nameStep, pass, hzero]
    · simp [hashStep, behind, firstOf, mapped, identStep, hident, hash, hn, nameStep, hzero]

theorem at_eq (cs : List Char) : atStep ('@' :: cs) = some (atSign cs) := by
  by_cases hident : startsIdent cs = true
  · simp [atStep, behind, firstOf, mapped, identStep, hident, atSign]
  · simp [atStep, behind, firstOf, mapped, identStep, hident, atSign, pass]

theorem number_eq {cs : List Char} (h : startsNumber cs = true) :
    numberStep cs = some (numeric cs) := by
  simp only [numberStep, chain, numeralStep, if_pos h, Option.bind_some, numeric]
  by_cases hident : startsIdent (cs.drop (numeral cs).length) = true
  · simp [firstOf, mapped, identStep, hident]
  · rcases hdrop : cs.drop (numeral cs).length with _ | ⟨c, after⟩
    · rw [hdrop] at hident
      simp [firstOf, mapped, identStep, hident, behind, pass]
    · rw [hdrop] at hident
      by_cases hc : c = '%'
      · subst hc
        simp [firstOf, mapped, identStep, hident, behind, pass]
      · simp [firstOf, mapped, identStep, hident, behind, pass, hc]

/-! ### One reader for each case

What the readers of tokens make of a text, in the form in which `other` asks for them.
-/

section Cases

variable (c : Char) (cs : List Char)

theorem blankStep_cons : blankStep (c :: cs) =
    if isBlank c then some (.whitespace, 1 + runLength isBlank cs) else none := by
  by_cases hc : isBlank c = true <;> simp [blankStep, chain, char, mapped, runOf, runLength, hc]

theorem behind_stringBody (quote : Char) : behind quote (stringBody quote) (c :: cs) =
    if c = quote then some (string quote cs) else none := by
  rw [string_eq]
  rfl

theorem hashStep_cons : hashStep (c :: cs) = if c = '#' then some (hash cs) else none := by
  split
  · next hc => rw [hc, hash_eq]
  · next hc => exact if_neg hc

theorem atStep_cons : atStep (c :: cs) = if c = '@' then some (atSign cs) else none := by
  split
  · next hc => rw [hc, at_eq]
  · next hc => exact if_neg hc

theorem numberStep_eq : numberStep cs = if startsNumber cs then some (numeric cs) else none := by
  split
  · next h => exact number_eq h
  · next h => simp [numberStep, chain, numeralStep, h]

theorem literal_cons (d : Char) (text : List Char) (k : TokenKind) :
    literal (d :: text) k (c :: cs) =
      if c = d ∧ cs.take text.length = text then some (k, text.length + 1) else none := by
  have hprefix : d :: text <+: c :: cs ↔ c = d ∧ cs.take text.length = text := by
    rw [List.cons_prefix_cons, List.prefix_iff_eq_take, eq_comm, eq_comm (a := text)]
  simp only [literal, hprefix, List.length_cons]

theorem identLikeStep_eq :
    identLikeStep cs = if startsIdent cs then some (identLike cs) else none := by
  split
  · next h => exact identLike_eq h
  · next h => simp [identLikeStep, chain, identStep, h]

theorem delimStep_cons : char (fun c => some (TokenKind.delim c)) (c :: cs) = some (.delim c, 1) := rfl

/-- The readers behind those for comments and punctuation are the cases of `other`, in order. -/
theorem other_eq : firstOf (tokenSteps.drop 2) (c :: cs) = some (other c cs) := by
  simp only [tokenSteps, List.drop_succ_cons, List.drop_zero, firstOf, blankStep_cons,
    behind_stringBody, hashStep_cons, atStep_cons, numberStep_eq, literal_cons, identLikeStep_eq,
    delimStep_cons, other]
  by_cases hc : isBlank c = true
  · simp only [if_pos hc, Option.some_or]
  by_cases hquote : c = '"' ∨ c = '\''
  · simp only [if_neg hc, if_pos hquote, Option.none_or]
    rcases hquote with rfl | rfl <;> simp
  obtain ⟨hdouble, hsingle⟩ := not_or.1 hquote
  simp only [if_neg hc, if_neg hquote, if_neg hdouble, if_neg hsingle, Option.none_or]
  by_cases hsharp : c = '#'
  · simp only [if_pos hsharp, Option.some_or]
  by_cases hsign : c = '@'
  · simp only [if_neg hsharp, if_pos hsign, Option.some_or, Option.none_or]
  by_cases hdigit : startsNumber (c :: cs) = true
  · simp only [if_neg hsharp, if_neg hsign, if_pos hdigit, Option.some_or, Option.none_or]
  simp only [if_neg hsharp, if_neg hsign, if_neg hdigit, Option.none_or]
  by_cases hclose : c = '-' ∧ cs.take 2 = ['-', '>']
  · simp [hclose]
  by_cases hopen : c = '<' ∧ cs.take 3 = ['!', '-', '-']
  · simp [hopen]
  by_cases hname : startsIdent (c :: cs) = true
  · simp [hclose, hopen, hname]
  · simp [hclose, hopen, hname]

end Cases

theorem token_eq (cs : List Char) : token cs = firstOf tokenSteps cs := by
  have hsteps (ds : List Char) : firstOf tokenSteps ds =
      (behind '/' (behind '*' commentBody) ds).or
        ((char punctuation? ds).or (firstOf (tokenSteps.drop 2) ds)) := rfl
  cases cs with
  | nil => rfl
  | cons c cs =>
    by_cases hcomment : c = '/' ∧ cs.head? = some '*'
    · obtain ⟨ds, rfl⟩ := List.head?_eq_some_iff.1 hcomment.2
      have hwidth : 1 + (1 + ((comment ds).2 - 2)) = (comment ds).2 := by
        simp only [comment]
        omega
      rw [hcomment.1, token_comment, hsteps]
      simp [behind, commentBody, hwidth]
    · have hnone : behind '/' (behind '*' commentBody) (c :: cs) = none := by
        cases cs with
        | nil => by_cases hc : c = '/' <;> simp [behind, hc]
        | cons d cs =>
          by_cases hc : c = '/' <;> by_cases hd : d = '*' <;> simp_all [behind]
      rw [token_cons hcomment, hsteps, hnone, Option.none_or, other_eq]
      rcases hsign : punctuation? c with _ | k <;> simp [char, hsign]

/-- What is read as a token stays one with another text behind it. -/
theorem steady_token : Steady token := by
  rw [show token = firstOf tokenSteps from funext token_eq]
  exact steady_firstOf steady_tokenSteps

end Scan
end GradientFallback
