import GradientFallback.Proofs.Text.SmallLetters
import GradientFallback.Proofs.Token.Enclosing
import GradientFallback.Proofs.Value.Pieces

/-! # Tokens in front of a blank

Tokens that a blank follows are read in the same way where the same blank follows with another text
behind it, or where a slash follows.  Three places are different.  A backslash escapes a slash, but
not a line end; a string that a line end breaks off goes on over a slash; and the parenthesis behind
`url` looks over all blanks for a quote.
-/
namespace GradientFallback

namespace Scan

/-! ## Blanks and slashes -/

/-- A blank or a slash. -/
def isBorder (c : Char) : Bool := isBlank c || c == '/'

theorem isNumeralChar_of_isBorder {c : Char} (hc : isBorder c = true) :
    Comma.isNumeralChar c = false := by
  rw [isBorder, Bool.or_eq_true, beq_iff_eq] at hc
  rcases hc with hc | rfl
  · have hdigit := isDigit_of_isBlank hc
    have hexponent : c.toLower ≠ 'e' := fun he => by
      rw [← isBlank_toLower, he] at hc
      exact absurd hc (by decide)
    have hsign {s : Char} (hs : isBlank s = false) : c ≠ s := ne_of_class hc hs
    simp [Comma.isNumeralChar, hdigit, hexponent, hsign (s := '+') (by decide),
      hsign (s := '-') (by decide), hsign (s := '.') (by decide)]
  · decide

/-- Numerals do not reach a blank or a slash. -/
theorem numeral_border {c : Char} (hc : isBorder c = true) (front cs : List Char) :
    numeral (front ++ c :: cs) = numeral front := by
  refine local_numeral.here _ _ (local_numeral.length_le_of_not_mem front (fun ds hmem => ?_) cs)
  have hchar := Comma.isNumeralChar_of_numeral ds c hmem
  rw [isNumeralChar_of_isBorder hc] at hchar
  exact absurd hchar nofun

theorem startsNumber_border {c : Char} (hc : isBorder c = true) (front cs : List Char) :
    startsNumber (front ++ c :: cs) = startsNumber front := by
  rw [Bool.eq_iff_iff]
  constructor
  · intro h
    refine startsNumber_here h ?_
    rw [numeral_border hc]
    exact (local_numeral.isPrefix front).length_le
  · exact fun h => startsNumber_append h _

/-- A fixed text does not go on over a character that it has not. -/
theorem isPrefix_border {text : List Char} {c : Char} (hc : c ∉ text) (front cs : List Char) :
    text <+: front ++ c :: cs ↔ text <+: front := by
  refine ⟨fun h => ?_, fun h => h.trans (List.prefix_append front _)⟩
  by_cases hlength : text.length ≤ front.length
  · exact isPrefix_here h hlength
  · obtain ⟨more, hmore⟩ := h
    have hat : (text ++ more)[front.length]? = some c := by
      rw [hmore]
      simp
    rw [List.getElem?_append_left (by omega)] at hat
    exact absurd (List.mem_of_getElem? hat) hc

theorem take_border (sign : List Char) (hsign : sign.any isBorder = false) {c : Char}
    (hc : isBorder c = true) (front cs : List Char) :
    (front ++ c :: cs).take sign.length = sign ↔ sign <+: front := by
  have hmem : c ∉ sign := fun hmem => List.any_eq_false.1 hsign c hmem hc
  rw [← isPrefix_border hmem front cs, List.prefix_iff_eq_take, eq_comm]

/-! ## Piece by piece -/

/-- Behind the pieces no further one is read. -/
theorem step_behind {α : Type} {step : Step Char α}
    (hpos : ∀ cs v n, step cs = some (v, n) → 0 < n) (hnil : step [] = none) (cs : List Char) :
    step (cs.drop (Piece.width (segment step cs))) = none := by
  have hend := segment_drop_width step cs
  by_cases hrest : cs.drop (Piece.width (segment step cs)) = []
  · rw [hrest, hnil]
  · have hzero := reach_of_segment_nil hrest hend
    rcases hr : step _ with _ | ⟨v, n⟩
    · rfl
    · rw [hr, reach_some] at hzero
      exact absurd (hpos _ v n hr) (by omega)

theorem escapeOr_behind (p : Char → Bool) (cs : List Char) :
    escapeOr p (cs.drop (Piece.width (segment (escapeOr p) cs))) = none := by
  have hpos (ds : List Char) (v : Char) (n : Nat) (hread : escapeOr p ds = some (v, n)) : 0 < n :=
    (escapeOr_width hread).1
  apply step_behind hpos rfl

/-! ## Names and strings -/

/-- The first text that may follow starts with a blank, and the second one with the same blank or
with a slash. -/
theorem isBorder_of_eq_or {c d : Char} (hc : isBlank c = true) (hd : d = c ∨ d = '/') :
    isBorder d = true := by
  rcases hd with rfl | rfl
  · simp [isBorder, hc]
  · rfl

theorem hexPart_blank {c : Char} (hc : isBlank c = true) (front cs : List Char) :
    hexPart (front ++ c :: cs) = hexPart (front ++ [c]) := by
  have hdigits (ds : List Char) : ((front ++ c :: ds).take 6).takeWhile isHexDigit =
      (front.take 6).takeWhile isHexDigit := by
    refine local_hexDigits.here front _ (local_hexDigits.length_le_of_not_mem front ?_ ds)
    intro es hmem
    have hhex := List.mem_takeWhile_imp hmem
    rw [isHexDigit_of_isBlank hc] at hhex
    exact absurd hhex nofun
  have hle := (local_hexDigits.isPrefix front).length_le
  simp only [hexPart, andThen, hdigits, List.drop_append_of_le_length hle]
  cases front.drop ((front.take 6).takeWhile isHexDigit).length <;> rfl

section Border

variable {c d : Char} {x y front : List Char} (hc : isBlank c = true) (hd : d = c ∨ d = '/')

include hc hd

theorem hexEscape_border (h : (hexEscape (front ++ c :: x)).2 ≤ front.length + 1) :
    hexEscape (front ++ d :: y) = hexEscape (front ++ c :: x) := by
  rw [hexEscape_here front _ h]
  apply hexEscape_here
  rw [hexEscape_snd, Nat.add_comm]
  apply Nat.succ_le_succ
  rcases hd with rfl | rfl
  · rw [hexEscape_snd, Nat.add_comm] at h
    rw [hexPart_blank hc front y, ← hexPart_blank hc front x]
    exact Nat.le_of_succ_le_succ h
  · exact local_hexPart.length_le_of_stop front rfl y

/-- Only a lone backslash looks at what follows. -/
theorem escape?_border (hfront : front ≠ []) (hslash : front ≠ ['\\'])
    (h : reach (escape? (front ++ c :: x)) ≤ front.length) :
    escape? (front ++ d :: y) = escape? (front ++ c :: x) := by
  obtain ⟨e, front, rfl⟩ := List.exists_cons_of_ne_nil hfront
  by_cases he : e = '\\'
  · subst he
    cases front with
    | nil => exact absurd rfl hslash
    | cons f front =>
      simp only [List.cons_append, escape?_backslash] at h ⊢
      by_cases hf : f = '\n'
      · rw [if_pos hf, if_pos hf]
      · rw [if_neg hf] at h ⊢
        rw [if_neg hf]
        by_cases hhex : isHexDigit f = true
        · rw [if_pos hhex] at h ⊢
          rw [if_pos hhex]
          have hfits : (hexEscape (f :: front ++ c :: x)).2 ≤ (f :: front).length + 1 := h
          exact congrArg some (hexEscape_border hc hd hfits)
        · rw [if_neg hhex, if_neg hhex]
  · have hnone (cs : List Char) : escape? (e :: cs) = none := escape?_eq_none (by simpa using he)
    rw [List.cons_append, List.cons_append, hnone, hnone]

theorem escapeOr_border {p : Char → Bool} (hfront : front ≠ []) (hslash : front ≠ ['\\'])
    (h : reach (escapeOr p (front ++ c :: x)) ≤ front.length) :
    escapeOr p (front ++ d :: y) = escapeOr p (front ++ c :: x) := by
  have hescape : reach (escape? (front ++ c :: x)) ≤ front.length := by
    unfold escapeOr at h
    rcases he : escape? (front ++ c :: x) with _ | r
    · exact Nat.zero_le _
    · rwa [he] at h
  unfold escapeOr
  rw [escape?_border hc hd hfront hslash hescape]
  obtain ⟨e, front, rfl⟩ := List.exists_cons_of_ne_nil hfront
  rfl

/-- Characters and escapes up to a character that is none of them; a backslash is one of them. -/
theorem escapes_border {p : Char → Bool} (hp : p '\\' = true)
    (hfits : Piece.width (segment (escapeOr p) (front ++ c :: x)) < front.length) :
    segment (escapeOr p) (front ++ d :: y) = segment (escapeOr p) (front ++ c :: x) := by
  have hnone := escapeOr_behind p (front ++ c :: x)
  rw [List.drop_append_of_le_length hfits.le] at hnone
  have hrest : front.drop (Piece.width (segment (escapeOr p) (front ++ c :: x))) ≠ [] :=
    List.ne_nil_of_length_pos (by rw [List.length_drop]; omega)
  refine segment_exchange (List.cons_ne_nil c x) hfits.le (fun more v n hread hn hle hsuffix => ?_) ?_
  · -- Something is left behind the piece, so it is no lone backslash.
    have hless := (List.length_pos_iff.2 hrest).trans_le hsuffix.length_le
    rw [List.length_drop] at hless
    rw [escapeOr_border hc hd _ _ (by rw [hread]; exact hle), hread]
    · rintro rfl
      exact absurd hless (by simp)
    · rintro rfl
      rw [List.length_singleton] at hless
      omega
  · have hslash : front.drop (Piece.width (segment (escapeOr p) (front ++ c :: x))) ≠ ['\\'] := by
      intro hslash
      have hsome : (escapeOr p ('\\' :: c :: x)).isSome :=
        escapeOr_isSome (.inr (by simpa using hp))
      rw [hslash, List.singleton_append] at hnone
      rw [hnone] at hsome
      exact absurd hsome nofun
    exact segment_of_none _
      ((escapeOr_border hc hd hrest hslash (by rw [hnone]; exact Nat.zero_le _)).trans hnone)

end Border

section Names

variable {c d : Char} {x y front : List Char} (hc : isBlank c = true) (hd : d = c ∨ d = '/')

include hc hd

/-- A name that stops in front of a blank stops there with any text behind it, and in front of a
slash, unless it stops in front of a lone backslash. -/
theorem nameStop_border (hslash : d ≠ c → front ≠ ['\\'])
    (h : escapeOr isNameChar (front ++ c :: x) = none) :
    escapeOr isNameChar (front ++ d :: y) = none := by
  have hplain {e : Char} (he : e ≠ '\\') (cs : List Char) :
      escapeOr isNameChar (e :: cs) = if isNameChar e then some (e, 1) else none := by
    unfold escapeOr
    rw [escape?_eq_none (by simpa using he)]
  by_cases hnil : front = []
  · subst hnil
    rw [List.nil_append] at h ⊢
    rw [hplain (ne_of_class (isBorder_of_eq_or hc hd) (by decide))]
    rcases hd with rfl | rfl
    · rw [hplain (ne_of_class hc (by decide))] at h
      exact h
    · rfl
  by_cases hlone : front = ['\\']
  · obtain rfl : d = c := by
      by_contra hne
      exact hslash hne hlone
    subst hlone
    have hreach : reach (escape? ('\\' :: d :: x)) ≤ 1 := by
      unfold escapeOr at h
      rcases he : escape? (['\\'] ++ d :: x) with _ | r
      · exact (congrArg reach he).trans_le (Nat.zero_le _)
      · rw [he] at h
        exact absurd h nofun
    obtain rfl : d = '\n' := by simpa using (escape?_last (List.cons_ne_nil d x) hreach).1
    rfl
  · rw [escapeOr_border hc hd hnil hlone (by rw [h]; exact Nat.zero_le _), h]

theorem name_border (hfits : (name (front ++ c :: x)).2 ≤ front.length)
    (hslash : d ≠ c → front.drop (name (front ++ c :: x)).2 ≠ ['\\']) :
    name (front ++ d :: y) = name (front ++ c :: x) := by
  have hpieces : segment (escapeOr isNameChar) (front ++ d :: y) =
      segment (escapeOr isNameChar) (front ++ c :: x) := by
    refine segment_exchange (List.cons_ne_nil c x) hfits (fun more v n hread hn hle _ => ?_) ?_
    · rw [escapeOr_border hc hd _ _ (by rw [hread]; exact hle), hread]
      · rintro rfl
        exact absurd (hn.trans_le hle) (Nat.lt_irrefl 0)
      · -- A backslash alone is neither an escape nor a name character.
        rintro rfl
        have hescape := escape?_last (x := c :: x) (List.cons_ne_nil c x)
        unfold escapeOr at hread
        rcases he : escape? (['\\'] ++ c :: x) with _ | ⟨w, m⟩
        · rw [he] at hread
          exact absurd hread nofun
        · rw [he] at hread
          obtain ⟨rfl, rfl⟩ := Prod.mk.inj (Option.some.inj hread)
          have hnone := (hescape ((congrArg reach he).trans_le hle)).2
          rw [List.singleton_append, hnone] at he
          exact absurd he nofun
    · have hnone := escapeOr_behind isNameChar (front ++ c :: x)
      change Piece.width (segment (escapeOr isNameChar) (front ++ c :: x)) ≤ front.length at hfits
      rw [List.drop_append_of_le_length hfits] at hnone
      exact segment_of_none _ (nameStop_border hc hd hslash hnone)
  simp only [name, hpieces]

theorem startsPlainName_border (hslash : d ≠ c → front ≠ ['\\'])
    (h : startsPlainName (front ++ c :: x) = false) :
    startsPlainName (front ++ d :: y) = false := by
  cases front with
  | nil =>
    rw [List.nil_append, startsPlainName_cons] at h ⊢
    rw [if_neg (ne_of_class (isBorder_of_eq_or hc hd) (by decide))]
    rcases hd with rfl | rfl
    · rwa [if_neg (ne_of_class hc (by decide))] at h
    · rfl
  | cons e front =>
    rw [List.cons_append, startsPlainName_cons] at h ⊢
    cases front with
    | cons f front => exact h
    | nil =>
      by_cases he : e = '\\'
      · obtain rfl : d = c := by
          by_contra hne
          exact hslash hne (by rw [he])
        exact h
      · rw [if_neg he] at h ⊢
        exact h

theorem startsIdent_border (hslash : d ≠ c → front ≠ ['\\'] ∧ front ≠ ['-', '\\'])
    (h : startsIdent (front ++ c :: x) = false) : startsIdent (front ++ d :: y) = false := by
  have hne {e : Char} (he : isBorder e = true) : e ≠ '-' := ne_of_class he (by decide)
  have hborder := hne (isBorder_of_eq_or hc hd)
  cases front with
  | nil =>
    rw [List.nil_append, startsIdent_cons, if_neg (ne_of_class hc (by decide))] at h
    rw [List.nil_append, startsIdent_cons, if_neg hborder]
    have hplain : startsPlainName ([] ++ c :: x) = false := h
    have hstarts := startsPlainName_border (y := y) hc hd (fun _ => by simp) hplain
    exact hstarts
  | cons e front =>
    rw [List.cons_append, startsIdent_cons] at h ⊢
    by_cases he : e = '-'
    · rw [if_pos he, Bool.or_eq_false_iff] at h ⊢
      refine ⟨?_, startsPlainName_border hc hd (fun hdc hfront => ?_) h.2⟩
      · cases front with
        | nil => simpa using hborder
        | cons f front => exact h.1
      · exact (hslash hdc).2 (by rw [he, hfront])
    · rw [if_neg he] at h ⊢
      rw [← List.cons_append] at h ⊢
      exact startsPlainName_border hc hd (fun hdc => (hslash hdc).1) h

end Names

theorem stringStep_plain {quote : Char} {cs : List Char} (hcs : ¬['\\', '\n'] <+: cs) :
    stringStep quote cs =
      (escapeOr (fun c => c != quote && c != '\n') cs).map fun r => (some r.1, r.2) := by
  simp only [stringStep_eq, firstOf, literal, if_neg hcs, Option.none_or, mapped]
  rcases escapeOr _ cs with _ | r <;> rfl

/-- A string goes on until its quote or a line end. -/
theorem stringStep_eq_none {quote e : Char} {cs : List Char} (hquote : quote ≠ '\\') :
    stringStep quote (e :: cs) = none ↔ e = quote ∨ e = '\n' := by
  constructor
  · intro h
    by_contra hgoes
    rw [not_or] at hgoes
    by_cases hline : ['\\', '\n'] <+: e :: cs
    · obtain ⟨more, hmore⟩ := hline
      rw [← hmore] at h
      exact absurd h nofun
    · have hsome : (escapeOr (fun c => c != quote && c != '\n') (e :: cs)).isSome :=
        escapeOr_isSome (.inr (by simpa using hgoes))
      rw [stringStep_plain hline, Option.map_eq_none_iff] at h
      rw [h] at hsome
      exact absurd hsome nofun
  · intro h
    have he : e ≠ '\\' := by
      rcases h with rfl | rfl
      · exact hquote
      · decide
    rw [stringStep_plain (by simpa using fun hslash => absurd hslash.symm he), escapeOr,
      escape?_eq_none (by simpa using he)]
    rcases h with rfl | rfl <;> simp

theorem stringStep_behind (quote : Char) (cs : List Char) :
    stringStep quote (cs.drop (Piece.width (segment (stringStep quote) cs))) = none := by
  refine step_behind (fun ds v n (hread : stringStep quote ds = some (v, n)) => ?_) rfl cs
  unfold stringStep at hread
  split at hread
  · cases hread
    exact Nat.two_pos
  · obtain ⟨⟨w, m⟩, hescape, hsame⟩ := Option.map_eq_some_iff.1 hread
    cases hsame
    exact (escapeOr_width hescape).1

section Strings

variable {c d : Char} {x y front : List Char} (hc : isBlank c = true) (hd : d = c ∨ d = '/')

include hc hd

theorem stringStep_border {quote : Char} (hfront : front ≠ [])
    (h : reach (stringStep quote (front ++ c :: x)) ≤ front.length) :
    stringStep quote (front ++ d :: y) = stringStep quote (front ++ c :: x) := by
  by_cases hlone : front = ['\\']
  · -- In front of a blank a backslash is read with it.
    subst hlone
    by_cases hline : c = '\n'
    · subst hline
      exact absurd h (by simp [stringStep])
    · rw [stringStep_plain (by simpa [eq_comm] using hline)] at h
      unfold escapeOr at h
      rw [List.singleton_append, escape?_backslash, if_neg hline,
        if_neg (by rw [isHexDigit_of_isBlank hc]; exact Bool.false_ne_true)] at h
      exact absurd h (by simp)
  · have hsame (z : List Char) : ['\\', '\n'] <+: front ++ z ↔ ['\\', '\n'] <+: front := by
      obtain ⟨e, front, rfl⟩ := List.exists_cons_of_ne_nil hfront
      cases front with
      | nil =>
        have he : e ≠ '\\' := fun he => hlone (by rw [he])
        simp [he.symm]
      | cons f front => simp
    by_cases hline : ['\\', '\n'] <+: front
    · obtain ⟨more, rfl⟩ := hline
      rfl
    · rw [stringStep_plain (fun hcs => hline ((hsame _).1 hcs))] at h
      have hreach : reach (escapeOr (fun c => c != quote && c != '\n') (front ++ c :: x)) ≤
          front.length := by
        rcases hr : escapeOr (fun c => c != quote && c != '\n') (front ++ c :: x) with _ | r
        · exact Nat.zero_le _
        · rwa [hr] at h
      rw [stringStep_plain (fun hcs => hline ((hsame _).1 hcs)),
        stringStep_plain (fun hcs => hline ((hsame _).1 hcs)), escapeOr_border hc hd hfront hlone hreach]

/-- A string that a line end breaks off in front of a blank goes on over a slash. -/
theorem string_border {quote : Char} (hquote : quote = '"' ∨ quote = '\'')
    (hfits : (string quote (front ++ c :: x)).2 ≤ front.length + 1)
    (hbad : d ≠ c → ∀ content, (string quote (front ++ c :: x)).1 = .badString content →
      (string quote (front ++ c :: x)).2 ≤ front.length) :
    string quote (front ++ d :: y) = string quote (front ++ c :: x) := by
  have hslash : quote ≠ '\\' := by rcases hquote with rfl | rfl <;> decide
  have hquoteBlank : c ≠ quote := by
    rcases hquote with rfl | rfl <;> exact ne_of_class hc (by decide)
  have hbehind := stringStep_behind quote (front ++ c :: x)
  obtain ⟨width, hwidth⟩ :
      ∃ width, Piece.width (segment (stringStep quote) (front ++ c :: x)) = width := ⟨_, rfl⟩
  have hle : width ≤ front.length := by
    simp only [string, hwidth] at hfits
    split at hfits
    · omega
    · split at hfits <;> omega
  rw [hwidth, List.drop_append_of_le_length hle] at hbehind
  -- The sign that ends the string stands in the front, unless it is the blank itself.
  obtain ⟨e, us, vs, hx, hy⟩ : ∃ e us vs, front.drop width ++ c :: x = e :: us ∧
      front.drop width ++ d :: y = e :: vs := by
    rcases hrest : front.drop width with _ | ⟨e, more⟩
    · refine ⟨c, x, y, rfl, ?_⟩
      have hall : width = front.length := Nat.le_antisymm hle (List.drop_eq_nil_iff.1 hrest)
      obtain rfl : d = c := by
        by_contra hdc
        have hshort := hbad hdc
        simp only [string, hwidth, List.drop_append_of_le_length hle, hrest, List.nil_append,
          if_neg hquoteBlank] at hshort
        have := hshort _ rfl
        omega
      rfl
    · exact ⟨e, more ++ c :: x, more ++ d :: y, rfl, rfl⟩
  rw [hx, stringStep_eq_none hslash] at hbehind
  have hsame : segment (stringStep quote) (front ++ d :: y) =
      segment (stringStep quote) (front ++ c :: x) := by
    refine segment_exchange (List.cons_ne_nil c x) (hwidth.trans_le hle)
      (fun more v n hread hn hfit _ => ?_) ?_
    · rw [stringStep_border hc hd _ (by rw [hread]; exact hfit), hread]
      rintro rfl
      exact absurd (hn.trans_le hfit) (Nat.lt_irrefl 0)
    · rw [hwidth, hy]
      exact segment_of_none _ ((stringStep_eq_none hslash).2 hbehind)
  simp only [string, hsame, hwidth, List.drop_append_of_le_length hle, hx, hy]

end Strings

/-! ## Addresses -/

/-- Blanks that a run stops behind have something else behind them. -/
theorem blanks_border {c : Char} {x front : List Char} (hc : isBlank c = true)
    (h : runLength isBlank (front ++ c :: x) ≤ front.length) :
    ∃ indent e more, front = indent ++ e :: more ∧ isBlank e = false ∧
      ∀ z, (indent ++ (e :: more ++ z)).takeWhile isBlank = indent := by
  rcases hrest : front.dropWhile isBlank with _ | ⟨e, more⟩
  · have hall : ∀ c ∈ front, isBlank c = true := List.dropWhile_eq_nil_iff.1 hrest
    rw [runLength, List.takeWhile_append_of_pos hall, List.takeWhile_cons_of_pos hc,
      List.length_append, List.length_cons] at h
    omega
  · have he : isBlank e = false := by
      have := List.head?_dropWhile_not isBlank front
      simpa [hrest] using this
    refine ⟨front.takeWhile isBlank, e, more, ?_, he, fun z => ?_⟩
    · rw [← hrest, List.takeWhile_append_dropWhile]
    · rw [List.takeWhile_append_of_pos fun c hmem => List.mem_takeWhile_imp hmem,
        List.cons_append, List.takeWhile_cons_of_neg (by simp [he]), List.append_nil]

/-- Blanks that stop in front of a blank stop there whatever follows. -/
theorem runLength_border {c : Char} {x front : List Char} (hc : isBlank c = true)
    (h : runLength isBlank (front ++ c :: x) ≤ front.length) (y : List Char) :
    runLength isBlank (front ++ y) = runLength isBlank (front ++ c :: x) := by
  obtain ⟨indent, e, more, rfl, -, hrun⟩ := blanks_border hc h
  simp only [runLength, List.append_assoc, hrun]

/-- Whether a quote comes first is seen where anything but blanks stands. -/
theorem startsUrl_of_mem {front : List Char} {e : Char} (he : e ∈ front) (hsolid : isBlank e = false)
    (x y : List Char) : startsUrl (front ++ y) = startsUrl (front ++ x) := by
  rcases hrest : front.dropWhile isBlank with _ | ⟨f, more⟩
  · have hblank := List.dropWhile_eq_nil_iff.1 hrest e he
    rw [hsolid] at hblank
    exact absurd hblank nofun
  · simp only [startsUrl_eq, dropWhile_append_of_drop hrest]

section Addresses

variable {c d : Char} {x y front : List Char} (hc : isBlank c = true) (hd : d = c ∨ d = '/')

include hc hd

theorem brokenUrlWidth_border (h : brokenUrlWidth (front ++ c :: x) ≤ front.length) :
    brokenUrlWidth (front ++ d :: y) = brokenUrlWidth (front ++ c :: x) := by
  obtain ⟨width, hwidth⟩ : ∃ width,
      Piece.width (segment (escapeOr fun c => c != ')') (front ++ c :: x)) = width := ⟨_, rfl⟩
  have hless : width < front.length := by
    simp only [brokenUrlWidth, hwidth] at h
    by_contra hnot
    have hdrop : ((front ++ c :: x).drop width).take 1 = [c] := by
      rw [show width = front.length by omega, List.drop_left]
      rfl
    rw [hdrop, List.length_singleton] at h
    omega
  have hsame := escapes_border (y := y) hc hd (p := fun c => c != ')') (by decide)
    (hwidth.trans_lt hless)
  have hrest : front.drop width ≠ [] := List.ne_nil_of_length_pos (by rw [List.length_drop]; omega)
  simp only [brokenUrlWidth, hsame, hwidth, List.drop_append_of_le_length hless.le]
  obtain ⟨e, more, he⟩ := List.exists_cons_of_ne_nil hrest
  rw [he]
  rfl

theorem urlEnd_border (address : String) (h : reach (urlEnd address (front ++ c :: x)) ≤ front.length) :
    urlEnd address (front ++ d :: y) = urlEnd address (front ++ c :: x) := by
  cases front with
  | nil => exact absurd (urlEnd_pos address (List.cons_ne_nil c x)) (by simpa using h)
  | cons e front =>
    by_cases he : e = ')'
    · simp [urlEnd, he]
    · simp only [List.cons_append, urlEnd, if_neg he, brokenUrl_eq, reach_some] at h ⊢
      rw [← List.cons_append] at h ⊢
      rw [brokenUrlWidth_border hc hd h, List.cons_append]

theorem urlRest_border (h : reach (urlRest (front ++ c :: x)) ≤ front.length) :
    urlRest (front ++ d :: y) = urlRest (front ++ c :: x) := by
  rw [urlRest, reach_chain rfl fun _ _ => chain_isSome rfl fun _ _ => urlEnd_isSome _ _,
    reach_chain rfl fun _ _ => urlEnd_isSome _ _] at h
  obtain ⟨width, hwidth⟩ : ∃ width,
      Piece.width (segment (escapeOr isUrlChar) (front ++ c :: x)) = width := ⟨_, rfl⟩
  rw [hwidth, List.drop_append_of_le_length (by omega)] at h
  have hgap : runLength isBlank (front.drop width ++ c :: x) ≤ (front.drop width).length := by
    rw [List.length_drop, runLength]
    omega
  obtain ⟨gap, e, more, hrest, -, hrun⟩ := blanks_border hc hgap
  have hless : width < front.length := by
    have := congrArg List.length hrest
    rw [List.length_drop, List.length_append, List.length_cons] at this
    omega
  have hsame := escapes_border (y := y) hc hd (p := isUrlChar) (by decide)
    (hwidth.trans_lt hless)
  rw [hrest, List.append_assoc, hrun, List.drop_left] at h
  have hlength := congrArg List.length hrest
  rw [List.length_drop, List.length_append] at hlength
  simp only [urlRest, chain, pieces, Option.bind_some, hsame, hwidth, runOf,
    List.drop_append_of_le_length hless.le, hrest, hrun, List.append_assoc, List.drop_left]
  rw [urlEnd_border (x := x) hc hd _ (by omega)]

theorem url_border (h : (url (front ++ c :: x)).2 ≤ front.length) :
    url (front ++ d :: y) = url (front ++ c :: x) := by
  have hreach : reach (urlBody (front ++ c :: x)) ≤ front.length := by rwa [← url_eq]
  rw [urlBody, reach_chain rfl fun _ => urlRest_isSome] at hreach
  have hindent : runLength isBlank (front ++ c :: x) ≤ front.length := by
    rw [runLength]
    omega
  obtain ⟨indent, e, more, rfl, -, hrun⟩ := blanks_border hc hindent
  rw [List.append_assoc, hrun, List.drop_left, List.length_append] at hreach
  rw [← Option.some_inj, url_eq, url_eq]
  simp only [urlBody, chain, runOf, Option.bind_some, hrun, List.append_assoc, List.drop_left]
  rw [urlRest_border (x := x) hc hd (by omega)]

end Addresses

/-! ## Tokens -/

/-- A backslash that would escape what follows, or a hyphen that would start a name with it. -/
def Loose (cs : List Char) : Prop := cs = ['\\'] ∨ cs = ['-', '\\']

theorem atSign_eq_identStep (cs : List Char) : atSign cs =
    (((identStep cs).map fun r => TokenKind.atKeyword r.1).getD (.delim '@'),
      1 + reach (identStep cs)) := by
  by_cases hident : startsIdent cs = true <;> simp [atSign, identStep, hident, reach]

/-- Behind its numeral a number has a unit, a percent sign or nothing. -/
theorem numeric_eq_identStep {digits cs : List Char} (h : numeral (digits ++ cs) = digits) :
    numeric (digits ++ cs) =
      ((identStep cs).map fun r => (TokenKind.dimension (numeralValue digits) r.1,
        digits.length + r.2)).getD (if cs.head? = some '%' then
          (.percentage (numeralValue digits), digits.length + 1)
        else (.number (numeralValue digits), digits.length)) := by
  simp only [numeric, h, List.drop_left]
  by_cases hident : startsIdent cs = true <;> simp [identStep, hident]

theorem numeral_length_le_numeric (cs : List Char) : (numeral cs).length ≤ (numeric cs).2 := by
  simp only [numeric]
  split
  · exact Nat.le_add_right _ _
  · split
    · exact Nat.le_add_right _ _
    · exact le_rfl

section Tokens

variable {c d : Char} {x y front : List Char} {k : TokenKind} {n : Nat}
  (hc : isBlank c = true) (hd : d = c ∨ d = '/')

include hc hd

theorem startsIdent_same (hfits : (name (front ++ c :: x)).2 ≤ front.length)
    (hslash : d ≠ c → front.drop (name (front ++ c :: x)).2 ≠ ['\\']) :
    startsIdent (front ++ d :: y) = startsIdent (front ++ c :: x) := by
  rw [Bool.eq_iff_iff]
  constructor
  · intro h
    have hsame := name_border (y := y) hc hd hfits hslash
    exact startsIdent_append (startsIdent_here h (by rwa [hsame])) _
  · exact fun h => startsIdent_append (startsIdent_here h hfits) _

theorem hash_border (h : hash (front ++ c :: x) = (k, 1 + n)) (hn : n ≤ front.length)
    (hloose : d ≠ c → ¬Loose (front.drop n)) : hash (front ++ d :: y) = (k, 1 + n) := by
  have hwidth : (name (front ++ c :: x)).2 = n := by
    simp only [hash] at h
    split at h
    · next hzero => simpa [hzero, eq_comm] using congrArg Prod.snd h
    · split at h <;> simpa using congrArg Prod.snd h
  have hslash (hdc : d ≠ c) : front.drop (name (front ++ c :: x)).2 ≠ ['\\'] :=
    fun hrest => hloose hdc (.inl (by rw [← hwidth, hrest]))
  have hsame := name_border (y := y) hc hd (by omega) hslash
  have hident := startsIdent_same (y := y) hc hd (by omega) hslash
  rw [← h]
  simp only [hash, hsame, hident]

/-- An identifier that may be missing. -/
theorem identStep_border (hfits : reach (identStep (front ++ c :: x)) ≤ front.length)
    (hloose : d ≠ c → ¬Loose (front.drop (reach (identStep (front ++ c :: x))))) :
    identStep (front ++ d :: y) = identStep (front ++ c :: x) := by
  by_cases hident : startsIdent (front ++ c :: x) = true
  · simp only [identStep, if_pos hident] at hfits hloose ⊢
    have hslash (hdc : d ≠ c) : front.drop (name (front ++ c :: x)).2 ≠ ['\\'] :=
      fun hrest => hloose hdc (.inl hrest)
    rw [startsIdent_same hc hd hfits hslash, if_pos hident, name_border hc hd hfits hslash]
  · have hnot := startsIdent_border (y := y) hc hd
      (fun hdc => by simpa [identStep, hident, Loose] using hloose hdc) (by simpa using hident)
    simp [identStep, hident, hnot]

theorem atSign_border (h : atSign (front ++ c :: x) = (k, 1 + n)) (hn : n ≤ front.length)
    (hloose : d ≠ c → ¬Loose (front.drop n)) : atSign (front ++ d :: y) = (k, 1 + n) := by
  rw [atSign_eq_identStep] at h ⊢
  have hreach : reach (identStep (front ++ c :: x)) = n := by
    have := congrArg Prod.snd h
    simp only at this
    omega
  rw [identStep_border hc hd (hreach.trans_le hn) (by rwa [hreach]), h]

theorem numeric_border (h : numeric (front ++ c :: x) = (k, n)) (hn : n ≤ front.length)
    (hloose : d ≠ c → ¬Loose (front.drop n)) : numeric (front ++ d :: y) = (k, n) := by
  have hborder := isBorder_of_eq_or hc hd
  obtain ⟨digits, hnumeral⟩ : ∃ digits, numeral front = digits := ⟨_, rfl⟩
  have hdigits : numeral (front ++ d :: y) = digits := (numeral_border hborder _ _).trans hnumeral
  have hdigits' : numeral (front ++ c :: x) = digits :=
    (numeral_border (isBorder_of_eq_or hc (.inl rfl)) _ _).trans hnumeral
  have hle := numeral_length_le_numeric (front ++ c :: x)
  rw [hdigits', h] at hle
  obtain ⟨front, rfl⟩ : ∃ more, front = digits ++ more :=
    (hnumeral ▸ numeral_isPrefix front).imp fun _ => Eq.symm
  obtain ⟨m, rfl⟩ := Nat.exists_eq_add_of_le hle
  rw [List.length_append] at hn
  rw [List.drop_length_add_append] at hloose
  rw [List.append_assoc] at hdigits hdigits' h ⊢
  rw [numeric_eq_identStep hdigits'] at h
  rw [numeric_eq_identStep hdigits]
  have hhead : (front ++ d :: y).head? = some '%' ↔ (front ++ c :: x).head? = some '%' := by
    cases front with
    | nil => simp [ne_of_class hc (d := '%') (by decide), ne_of_class hborder (d := '%') (by decide)]
    | cons e front => rfl
  have hstep : identStep (front ++ d :: y) = identStep (front ++ c :: x) := by
    rcases hread : identStep (front ++ c :: x) with _ | ⟨unit, width⟩
    · rw [hread] at h
      refine (identStep_border hc hd (by simp [hread]) fun hdc => ?_).trans hread
      rw [hread, reach_none, List.drop_zero]
      rintro hfront
      have hpercent : (front ++ c :: x).head? ≠ some '%' := by
        rcases hfront with rfl | rfl <;> simp
      simp only [Option.map_none, Option.getD_none, if_neg hpercent, Prod.mk.injEq] at h
      exact hloose hdc (by rw [show m = 0 by omega]; exact hfront)
    · rw [hread] at h
      simp only [Option.map_some, Option.getD_some, Prod.mk.injEq] at h
      obtain rfl : width = m := by omega
      exact (identStep_border hc hd (by simp [hread]; omega) (by simpa [hread] using hloose)).trans
        hread
  rw [hstep]
  simp only [hhead]
  exact h

/-- A function, or an address. -/
theorem call_border {inner : List Char} (hfits : (name (front ++ c :: x)).2 ≤ front.length)
    (hinner : front.drop (name (front ++ c :: x)).2 = '(' :: inner)
    (h : identLike (front ++ c :: x) = (k, n)) (hn : n ≤ front.length)
    (hurl : ∀ value, k = .function value → sameLetters value "url" = true →
      ∃ e ∈ front.drop n, isBlank e = false) : identLike (front ++ d :: y) = (k, n) := by
  have hsame := name_border (y := y) hc hd hfits fun _ => by simp [hinner]
  have hbehind (z : List Char) : (front ++ z).drop (name (front ++ c :: x)).2 =
      '(' :: (inner ++ z) := by
    rw [List.drop_append_of_le_length hfits, hinner, List.cons_append]
  have hinside : front.drop ((name (front ++ c :: x)).2 + 1) = inner := by
    rw [← List.drop_drop, hinner]
    rfl
  have hlength := congrArg List.length hinner
  rw [List.length_drop, List.length_cons] at hlength
  rw [Comma.identLike_of_paren (hbehind _)] at h
  rw [Comma.identLike_of_paren (hsame ▸ hbehind _), hsame]
  by_cases hname : sameLetters (name (front ++ c :: x)).1 "url" = true
  · by_cases hstarts : startsUrl (inner ++ c :: x) = true
    · rw [if_pos ⟨hname, hstarts⟩] at h
      have hurlFits : (url (inner ++ c :: x)).2 ≤ inner.length := by
        have hn' := congrArg Prod.snd h
        simp only at hn'
        omega
      have hreach : reach (urlBody (inner ++ c :: x)) ≤ inner.length := by rwa [← url_eq]
      rw [startsUrl_here (List.cons_ne_nil c x) hreach, if_pos ⟨hname, hstarts⟩,
        url_border hc hd hurlFits, h]
    · rw [if_neg fun hboth => hstarts hboth.2] at h
      obtain ⟨rfl, rfl⟩ := Prod.mk.inj h
      obtain ⟨e, hmem, he⟩ := hurl _ rfl hname
      rw [hinside] at hmem
      rw [startsUrl_of_mem hmem he (c :: x), if_neg fun hboth => hstarts hboth.2]
  · rw [if_neg fun hboth => hname hboth.1] at h
    rw [if_neg fun hboth => hname hboth.1, h]

theorem identLike_border (h : identLike (front ++ c :: x) = (k, n)) (hn : n ≤ front.length)
    (hloose : d ≠ c → ¬Loose (front.drop n))
    (hurl : ∀ value, k = .function value → sameLetters value "url" = true →
      ∃ e ∈ front.drop n, isBlank e = false) : identLike (front ++ d :: y) = (k, n) := by
  have hwidth := name_width_le_identLike (front ++ c :: x)
  rw [h] at hwidth
  have hfits : (name (front ++ c :: x)).2 ≤ front.length := hwidth.trans hn
  by_cases hparen : (front.drop (name (front ++ c :: x)).2).head? = some '('
  · obtain ⟨inner, hinner⟩ := List.head?_eq_some_iff.1 hparen
    exact call_border hc hd hfits hinner h hn hurl
  · have hopen (e : Char) (he : isBorder e = true) (z : List Char) :
        ((front ++ e :: z).drop (name (front ++ c :: x)).2).head? ≠ some '(' := by
      rw [List.drop_append_of_le_length hfits]
      cases hrest : front.drop (name (front ++ c :: x)).2 with
      | nil => simpa using ne_of_class he (by decide)
      | cons f more => simpa [hrest] using hparen
    have hx := Comma.identLike_of_no_paren (hopen c (isBorder_of_eq_or hc (.inl rfl)) x)
    obtain ⟨rfl, rfl⟩ := Prod.mk.inj (hx.symm.trans h)
    have hsame := name_border (y := y) hc hd hfits fun hdc hrest => hloose hdc (.inl hrest)
    rw [Comma.identLike_of_no_paren (hsame ▸ hopen d (isBorder_of_eq_or hc hd) y), hsame]

/-- A name, or a character that is a token of its own. -/
theorem word_border {e : Char}
    (h : (if startsIdent (front ++ c :: x) = true then identLike (front ++ c :: x)
      else (.delim e, 1)) = (k, n))
    (hn : n ≤ front.length) (hslash : d ≠ c → front ≠ ['\\']) (hloose : d ≠ c → ¬Loose (front.drop n))
    (hurl : ∀ value, k = .function value → sameLetters value "url" = true →
      ∃ f ∈ front.drop n, isBlank f = false) :
    (if startsIdent (front ++ d :: y) = true then identLike (front ++ d :: y)
      else (.delim e, 1)) = (k, n) := by
  by_cases hident : startsIdent (front ++ c :: x) = true
  · rw [if_pos hident] at h
    have hname := name_width_le_identLike (front ++ c :: x)
    rw [h] at hname
    rw [if_pos (startsIdent_append (startsIdent_here hident (hname.trans hn)) _)]
    exact identLike_border hc hd h hn hloose hurl
  · rw [if_neg hident] at h
    obtain ⟨rfl, rfl⟩ := Prod.mk.inj h
    have hnot : startsIdent (front ++ d :: y) = false := by
      refine startsIdent_border hc hd (fun hdc => ⟨hslash hdc, ?_⟩) (by simpa using hident)
      rintro rfl
      exact hloose hdc (.inl rfl)
    rw [hnot]
    rfl

theorem other_border {e : Char} (h : other e (front ++ c :: x) = (k, 1 + n)) (hn : n ≤ front.length)
    (hslash : d ≠ c → e :: front ≠ ['\\']) (hloose : d ≠ c → ¬Loose (front.drop n))
    (hbad : d ≠ c → ∀ content, k = .badString content → n < front.length)
    (hurl : ∀ value, k = .function value → sameLetters value "url" = true →
      ∃ f ∈ front.drop n, isBlank f = false) : other e (front ++ d :: y) = (k, 1 + n) := by
  have hborder := isBorder_of_eq_or hc hd
  by_cases hblank : isBlank e = true
  · simp only [other, if_pos hblank] at h ⊢
    obtain ⟨rfl, hwidth⟩ := Prod.mk.inj h
    rw [runLength_border hc (x := x) (by omega), hwidth]
  by_cases hquote : e = '"' ∨ e = '\''
  · simp only [other, if_neg hblank, if_pos hquote] at h ⊢
    have hbroken (hdc : d ≠ c) (content : String)
        (hkind : (string e (front ++ c :: x)).1 = .badString content) :
        (string e (front ++ c :: x)).2 ≤ front.length := by
      rw [h] at hkind ⊢
      have := hbad hdc content hkind
      dsimp only
      omega
    rw [string_border hc hd hquote (by rw [h]; dsimp only; omega) hbroken, h]
  by_cases hsharp : e = '#'
  · simp only [other, if_neg hblank, if_neg hquote, if_pos hsharp] at h ⊢
    exact hash_border hc hd h hn hloose
  by_cases hat : e = '@'
  · simp only [other, if_neg hblank, if_neg hquote, if_neg hsharp, if_pos hat] at h ⊢
    exact atSign_border hc hd h hn hloose
  simp only [other, if_neg hblank, if_neg hquote, if_neg hsharp, if_neg hat] at h ⊢
  have hlength : 1 + n ≤ (e :: front).length := by
    rw [List.length_cons]
    omega
  have hdrop : (e :: front).drop (1 + n) = front.drop n := by rw [Nat.add_comm, List.drop_succ_cons]
  rw [← List.cons_append] at h ⊢
  rw [startsNumber_border hborder]
  rw [startsNumber_border (isBorder_of_eq_or hc (.inl rfl))] at h
  by_cases hnumber : startsNumber (e :: front) = true
  · rw [if_pos hnumber] at h ⊢
    exact numeric_border hc hd h hlength (by rwa [hdrop])
  have hclose {f : Char} (hf : isBorder f = true) (z : List Char) :
      (front ++ f :: z).take 2 = ['-', '>'] ↔ ['-', '>'] <+: front :=
    take_border ['-', '>'] (by decide) hf front z
  have hopen {f : Char} (hf : isBorder f = true) (z : List Char) :
      (front ++ f :: z).take 3 = ['!', '-', '-'] ↔ ['!', '-', '-'] <+: front :=
    take_border ['!', '-', '-'] (by decide) hf front z
  rw [if_neg hnumber] at h ⊢
  simp only [hclose (isBorder_of_eq_or hc (.inl rfl)), hopen (isBorder_of_eq_or hc (.inl rfl))] at h
  simp only [hclose hborder, hopen hborder]
  by_cases hcloses : e = '-' ∧ ['-', '>'] <+: front
  · rw [if_pos hcloses] at h ⊢
    exact h
  by_cases hopens : e = '<' ∧ ['!', '-', '-'] <+: front
  · rw [if_neg hcloses, if_pos hopens] at h ⊢
    exact h
  rw [if_neg hcloses, if_neg hopens] at h ⊢
  exact word_border hc hd h hlength hslash (by rwa [hdrop]) (by rwa [hdrop])

/-- A token that ends in front of a blank, or before, is read in front of a slash. -/
theorem token_border (h : token (front ++ c :: x) = some (k, n)) (hn : n ≤ front.length)
    (hslash : d ≠ c → front ≠ ['\\']) (hloose : d ≠ c → ¬Loose (front.drop n))
    (hbad : d ≠ c → ∀ content, k = .badString content → n < front.length)
    (hurl : ∀ value, k = .function value → sameLetters value "url" = true →
      ∃ f ∈ front.drop n, isBlank f = false) : token (front ++ d :: y) = some (k, n) := by
  have hpos := (token_width h).1
  obtain ⟨e, front, rfl⟩ := List.exists_cons_of_length_pos (hpos.trans_le hn)
  obtain ⟨m, rfl⟩ : ∃ m, n = 1 + m := ⟨n - 1, by omega⟩
  rw [List.length_cons] at hn hbad
  have hdrop : (e :: front).drop (1 + m) = front.drop m := by rw [Nat.add_comm, List.drop_succ_cons]
  rw [hdrop] at hloose hurl
  rw [List.cons_append] at h ⊢
  by_cases hcomment : e = '/' ∧ (front ++ c :: x).head? = some '*'
  · obtain ⟨rfl, hstar⟩ := hcomment
    cases front with
    | nil => exact absurd (by simpa using hstar) (ne_of_class hc (d := '*') (by decide))
    | cons f front =>
      obtain rfl : f = '*' := by simpa using hstar
      rw [List.cons_append, token_comment, Option.some_inj] at h
      rw [List.cons_append, token_comment, comment_here front (List.cons_ne_nil c x), h]
      rw [List.length_cons] at hn
      rw [h]
      dsimp only
      omega
  · have hplain : ¬(e = '/' ∧ (front ++ d :: y).head? = some '*') := by
      rintro ⟨rfl, hstar⟩
      cases front with
      | nil =>
        have hborder := isBorder_of_eq_or hc hd
        exact absurd (by simpa using hstar) (ne_of_class hborder (d := '*') (by decide))
      | cons f front => exact hcomment ⟨rfl, hstar⟩
    rw [token_cons hcomment] at h
    rw [token_cons hplain]
    rcases hsign : punctuation? e with _ | kind
    · rw [hsign] at h
      rw [other_border hc hd (Option.some_inj.1 h) (by omega) hslash hloose
        (fun hdc content hkind => by have := hbad hdc content hkind; omega) hurl]
    · rwa [hsign] at h

end Tokens

/-- The hyphen of a loose backslash is no token together with it. -/
theorem token_loose {c : Char} {x : List Char} {k : TokenKind} (hc : isBlank c = true) :
    token ('-' :: '\\' :: c :: x) ≠ some (k, 2) := by
  intro h
  have hnumber : startsNumber ('-' :: '\\' :: c :: x) = false :=
    startsNumber_border (isBorder_of_eq_or hc (.inl rfl)) ['-', '\\'] x
  rw [token_cons (by simp)] at h
  have hother : other '-' ('\\' :: c :: x) = (k, 2) := Option.some_inj.1 h
  simp only [other, hnumber] at hother
  by_cases hident : startsIdent ('-' :: '\\' :: c :: x) = true
  · -- The name takes up the blank too.
    have hline : c ≠ '\n' := by
      rintro rfl
      exact absurd hident Bool.false_ne_true
    have hname := reach_escape?_le_name ('\\' :: c :: x)
    rw [escape?_backslash, if_neg hline, isHexDigit_of_isBlank hc, if_neg Bool.false_ne_true,
      reach_some] at hname
    have hread : identLike ('-' :: '\\' :: c :: x) = (k, 2) := by
      simpa [hident, isBlank] using hother
    have hwidth := name_width_le_identLike ('-' :: '\\' :: c :: x)
    rw [name_cons rfl, hread] at hwidth
    omega
  · simp [hident, isBlank] at hother

end Scan

namespace Token

/-- The token would go on over a slash behind it. -/
def GoesOn (t : Token) : Prop := t.text = ['\\'] ∨ ∃ content, t.kind = .badString content

/-- The token makes an address of what follows, unless that is quoted. -/
def OpensUrl (t : Token) : Prop := ∃ value, t.kind = .function value ∧ sameLetters value "url" = true

variable {ts : List Token} {c d : Char} {x y : List Char}

/-- A loose backslash is the last token. -/
theorem Spelled.last_of_loose (h : Spelled ts (c :: x)) (hc : isBlank c = true)
    (hloose : Scan.Loose (source ts)) : ∃ t ∈ ts.getLast?, t.text = ['\\'] := by
  have hslash {us : List Token} (hus : Spelled us (c :: x)) (hsource : source us = ['\\']) :
      ∃ t ∈ us.getLast?, t.text = ['\\'] := by
    cases us with
    | nil => exact absurd hsource nofun
    | cons t us =>
      obtain ⟨e, text, htext⟩ := List.exists_cons_of_ne_nil (text_ne_nil (spelled_cons.1 hus).1)
      rw [source_cons, htext, List.cons_append, List.cons.injEq, List.append_eq_nil_iff] at hsource
      obtain ⟨rfl, rfl, hnil⟩ := hsource
      obtain rfl := source_eq_nil (spelled_cons.1 hus).2 hnil
      exact ⟨t, rfl, htext⟩
  rcases hloose with hsource | hsource
  · exact hslash h hsource
  · cases ts with
    | nil => exact absurd hsource nofun
    | cons t ts =>
      obtain ⟨hread, hothers⟩ := spelled_cons.1 h
      obtain ⟨e, text, htext⟩ := List.exists_cons_of_ne_nil (text_ne_nil hread)
      rw [source_cons, htext, List.cons_append, List.cons.injEq] at hsource
      obtain ⟨rfl, hrest⟩ := hsource
      cases text with
      | nil =>
        obtain ⟨u, hu, hutext⟩ := hslash hothers hrest
        exact ⟨u, List.mem_getLast?_cons hu, hutext⟩
      | cons f text =>
        rw [List.cons_append, List.cons.injEq, List.append_eq_nil_iff] at hrest
        obtain ⟨rfl, rfl, hnil⟩ := hrest
        rw [htext, hnil] at hread
        exact absurd hread (Scan.token_loose hc)

/-- Tokens in front of a blank are read in front of the same blank with another text behind it, and
in front of a slash. -/
theorem Spelled.border (h : Spelled ts (c :: x)) (hc : isBlank c = true) (hd : d = c ∨ d = '/')
    (hlast : d ≠ c → ∀ t ∈ ts.getLast?, ¬t.GoesOn) (hurl : ∀ t ∈ ts.getLast?, ¬t.OpensUrl) :
    Spelled ts (d :: y) := by
  induction ts with
  | nil => exact spelled_nil _
  | cons t ts ih =>
    obtain ⟨hread, hothers⟩ := spelled_cons.1 h
    have hlater {u : Token} (hu : u ∈ ts.getLast?) : u ∈ (t :: ts).getLast? := List.mem_getLast?_cons hu
    refine spelled_cons.2 ⟨?_, ih hothers (fun hdc u hu => hlast hdc u (hlater hu))
      fun u hu => hurl u (hlater hu)⟩
    rw [← List.append_assoc] at hread ⊢
    refine Scan.token_border hc hd hread (by simp) (fun hdc hslash => ?_) (fun hdc hloose => ?_)
      (fun hdc content hkind => ?_) (fun value hkind hvalue => ?_)
    · obtain ⟨u, hu, hutext⟩ := h.last_of_loose hc (.inl hslash)
      exact hlast hdc u hu (.inl hutext)
    · rw [List.drop_left] at hloose
      obtain ⟨u, hu, hutext⟩ := hothers.last_of_loose hc hloose
      exact hlast hdc u (hlater hu) (.inl hutext)
    · by_contra hend
      have hnil : source ts = [] := List.eq_nil_of_length_eq_zero (by
        rw [List.length_append] at hend
        omega)
      obtain rfl := source_eq_nil hothers hnil
      exact hlast hdc t rfl (.inr ⟨content, hkind⟩)
    · rw [List.drop_left]
      cases ts with
      | nil => exact absurd ⟨value, hkind, hvalue⟩ (hurl t rfl)
      | cons u ts =>
        obtain ⟨hnext, -⟩ := spelled_cons.1 hothers
        have hne := text_ne_nil hnext
        obtain ⟨e, text, htext⟩ := List.exists_cons_of_ne_nil hne
        by_contra hall
        have hblank : ∀ f ∈ source (u :: ts), isBlank f = true := by simpa using hall
        rw [kind_of_isWhitespace (isWhitespace_of_isBlank hnext htext
          (hblank e (by simp [htext]))), Scan.token_whitespace_iff hne] at hnext
        have hborder : ∀ f ∈ (source ts ++ c :: x).head?, isBlank f = true := by
          cases hsource : source ts with
          | nil => simpa using hc
          | cons f more => simpa [hsource] using hblank f (by simp [hsource])
        obtain ⟨f, hf⟩ : ∃ f, f ∈ (source ts ++ c :: x).head? :=
          Option.isSome_iff_exists.1 (by simp)
        exact absurd (hborder f hf) (by rw [hnext.2 f hf]; exact nofun)

end Token
end GradientFallback
