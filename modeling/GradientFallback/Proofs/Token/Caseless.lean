import GradientFallback.Proofs.Text.SmallLetters
import GradientFallback.Proofs.Token.Lookahead
import Mathlib.Data.List.Forall2

/-! # Tokens in small letters

A text in small letters has the same tokens, each in small letters.  A reader is followed on both
texts at once: it reads the same number of characters, and what it gives is related.
-/
namespace GradientFallback

/-- The token in small letters, names and contents alike. -/
def TokenKind.folded : TokenKind → TokenKind
  | atKeyword name => atKeyword (lowerCase name)
  | ident name => ident (lowerCase name)
  | function name => function (lowerCase name)
  | url address => url (lowerCase address)
  | badUrl address => badUrl (lowerCase address)
  | dimension value unit => dimension value (lowerCase unit)
  | quotedString content => quotedString (lowerCase content)
  | badString content => badString (lowerCase content)
  | hash name => hash (lowerCase name)
  | idHash name => idHash (lowerCase name)
  | delim char => delim char.toLower
  | comment content => comment (lowerCase content)
  | kind => kind

namespace Scan

/-- The characters are the same letter, or they are equal. -/
def SameChar (c d : Char) : Prop := c.toLower = d.toLower

/-- The names are equal in small letters. -/
def SameName (s t : String) : Prop := lowerCase s = lowerCase t

/-- The tokens are equal in small letters. -/
def SameKind (k l : TokenKind) : Prop := k.folded = l.folded

/-- Tokens with the same name are equal in small letters. -/
theorem SameName.kind {s t : String} (h : SameName s t) (k : String → TokenKind)
    (hk : ∀ name, (k name).folded = k (lowerCase name)) : SameKind (k s) (k t) := by
  rw [SameKind, hk, hk, h]

/-- The first reader reads in small letters what the second one reads in the text. -/
def Caseless {α β : Type} (R : α → β → Prop) (s : Step Char α) (t : Step Char β) : Prop :=
  ∀ cs, Option.Rel (fun r q => R r.1 q.1 ∧ r.2 = q.2) (s (cs.map Char.toLower)) (t cs)

/-! ## Ways to combine readers -/

section Combine

variable {α β α' β' : Type} {R : α → β → Prop} {Q : α' → β' → Prop}

theorem rel_map {r : Option α} {q : Option β} (h : Option.Rel R r q) {f : α → α'} {g : β → β'}
    (hmap : ∀ v w, R v w → Q (f v) (g w)) : Option.Rel Q (r.map f) (q.map g) := by
  cases h with
  | none => exact .none
  | some hvalue => exact .some (hmap _ _ hvalue)

theorem rel_bind {r : Option α} {q : Option β} (h : Option.Rel R r q) {f : α → Option α'}
    {g : β → Option β'} (hbind : ∀ v w, R v w → Option.Rel Q (f v) (g w)) :
    Option.Rel Q (r.bind f) (q.bind g) := by
  cases h with
  | none => exact .none
  | some hvalue => exact hbind _ _ hvalue

theorem rel_or {r r' : Option α} {q q' : Option β} (h : Option.Rel R r q)
    (h' : Option.Rel R r' q') : Option.Rel R (r.or r') (q.or q') := by
  cases h with
  | none => exact h'
  | some hvalue => exact .some hvalue

theorem caseless_pass {v : α} {w : β} (h : R v w) : Caseless R (pass v) (pass w) :=
  fun _ => .some ⟨h, rfl⟩

theorem caseless_none : Caseless R (fun _ => none) (fun _ => none) := fun _ => .none

theorem caseless_char {p : Char → Option α} {q : Char → Option β}
    (h : ∀ c, Option.Rel R (p c.toLower) (q c)) : Caseless R (char p) (char q) := by
  intro cs
  cases cs with
  | nil => exact .none
  | cons c cs =>
    exact rel_map (h c) fun _ _ hvalue => ⟨hvalue, rfl⟩

theorem Caseless.map {s : Step Char α} {t : Step Char β} (h : Caseless R s t) {f : α → α'}
    {g : β → β'} (hmap : ∀ v w, R v w → Q (f v) (g w)) : Caseless Q (mapped f s) (mapped g t) := by
  exact fun cs => rel_map (h cs) fun _ _ hpiece => ⟨hmap _ _ hpiece.1, hpiece.2⟩

theorem caseless_firstOf {ss : List (Step Char α)} {ts : List (Step Char β)}
    (h : List.Forall₂ (Caseless R) ss ts) : Caseless R (firstOf ss) (firstOf ts) := by
  induction h with
  | nil => exact caseless_none
  | cons hfirst _ ih => exact fun cs => rel_or (hfirst cs) (ih cs)

theorem Caseless.chain {s : Step Char α} {t : Step Char β} {more : α → Step Char α'}
    {more' : β → Step Char β'} (h : Caseless R s t)
    (hmore : ∀ v w, R v w → Caseless Q (more v) (more' w)) :
    Caseless Q (chain s more) (chain t more') := by
  refine fun cs => rel_bind (h cs) fun p q hpiece => ?_
  rw [hpiece.2, ← List.map_drop]
  exact rel_map (hmore p.1 q.1 hpiece.1 (cs.drop q.2)) fun _ _ hrest =>
    ⟨hrest.1, congrArg _ hrest.2⟩

theorem Caseless.behind {s : Step Char α} {t : Step Char β} (h : Caseless R s t) {c : Char}
    (hc : isLetter c = false) : Caseless R (behind c s) (behind c t) := by
  intro cs
  cases cs with
  | nil => exact .none
  | cons d cs =>
    simp only [List.map_cons, Scan.behind, toLower_eq_iff hc]
    split
    · exact rel_map (h cs) fun _ _ hpiece => ⟨hpiece.1, congrArg _ hpiece.2⟩
    · exact .none

theorem isPrefix_toLower {text : List Char} (htext : text.any isLetter = false) (cs : List Char) :
    text <+: cs.map Char.toLower ↔ text <+: cs := by
  induction text generalizing cs with
  | nil => simp
  | cons c text ih =>
    rw [List.any_cons, Bool.or_eq_false_iff] at htext
    cases cs with
    | nil => rfl
    | cons d cs =>
      rw [List.map_cons, List.cons_prefix_cons, List.cons_prefix_cons, ih htext.2, eq_comm,
        toLower_eq_iff htext.1, eq_comm]

theorem caseless_literal {text : List Char} (htext : text.any isLetter = false) {v : α} {w : β}
    (h : R v w) : Caseless R (literal text v) (literal text w) := by
  intro cs
  simp only [literal, isPrefix_toLower htext]
  split
  · exact .some ⟨h, rfl⟩
  · exact .none

/-- The pieces of a text in small letters are the pieces of the text in small letters. -/
theorem Caseless.segment {s : Step Char α} {t : Step Char β} (h : Caseless R s t) (cs : List Char) :
    List.Forall₂ (fun p q => R p.value q.value ∧ p.text = q.text.map Char.toLower)
      (segment s (cs.map Char.toLower)) (segment t cs) := by
  induction hl : cs.length using Nat.strongRecOn generalizing cs with
  | ind l ih =>
    cases cs with
    | nil => exact .nil
    | cons c cs =>
      have hread := h (c :: cs)
      rw [List.map_cons] at hread ⊢
      rw [segment_cons, segment_cons]
      generalize s (c.toLower :: cs.map Char.toLower) = r, t (c :: cs) = q at hread ⊢
      cases hread with
      | none => exact .nil
      | @some piece piece' hpiece =>
        obtain ⟨v, n⟩ := piece
        obtain ⟨w, m⟩ := piece'
        obtain ⟨hvalue, rfl : n = m⟩ := hpiece
        cases n with
        | zero => exact .nil
        | succ n =>
          have hless : (cs.drop n).length < l := by
            rw [← hl, List.length_drop, List.length_cons]
            omega
          simp only [← List.map_drop, ← List.map_take]
          exact .cons ⟨hvalue, rfl⟩ (ih _ hless (cs.drop n) rfl)

theorem width_toLower {ps : List (Piece Char α)} {qs : List (Piece Char β)}
    (h : List.Forall₂ (fun p q => R p.value q.value ∧ p.text = q.text.map Char.toLower) ps qs) :
    Piece.width ps = Piece.width qs := by
  induction h with
  | nil => rfl
  | cons hpiece _ ih =>
    rw [Piece.width_cons, Piece.width_cons, hpiece.2, List.length_map, ih]

theorem Caseless.pieces {s : Step Char α} {t : Step Char β} (h : Caseless R s t) :
    Caseless (List.Forall₂ R) (pieces s) (pieces t) := by
  intro cs
  have hpieces := h.segment cs
  refine .some ⟨?_, width_toLower hpieces⟩
  simp only [Piece.values, List.forall₂_map_left_iff, List.forall₂_map_right_iff]
  exact hpieces.imp fun _ _ hpiece => hpiece.1

/-- A reader that takes characters as they are gives them in small letters. -/
theorem caseless_runOf {p : List Char → List Char}
    (h : ∀ cs, p (cs.map Char.toLower) = (p cs).map Char.toLower) :
    Caseless (fun ds es => ds = es.map Char.toLower) (runOf p) (runOf p) := by
  intro cs
  refine .some ⟨h cs, ?_⟩
  rw [h cs, List.length_map]

end Combine

/-! ## Escapes and names -/

@[simp] theorem isNameStart_toLower (c : Char) : isNameStart c.toLower = isNameStart c :=
  apply_toLower (by decide) c

@[simp] theorem isNameChar_toLower (c : Char) : isNameChar c.toLower = isNameChar c :=
  apply_toLower (by decide) c

@[simp] theorem isUrlChar_toLower (c : Char) : isUrlChar c.toLower = isUrlChar c :=
  apply_toLower (by decide) c

theorem caseless_escape? : Caseless SameChar escape? escape? := by
  intro cs
  by_cases hslash : cs.head? = some '\\'
  · obtain ⟨cs, rfl⟩ := List.head?_eq_some_iff.1 hslash
    cases cs with
    | nil => exact .none
    | cons d cs =>
      have hhex : hexEscape (d.toLower :: cs.map Char.toLower) = hexEscape (d :: cs) := by
        rw [← List.map_cons]
        simp only [hexEscape, ← List.map_take, takeWhile_toLower _ isHexDigit_toLower,
          digitsValue_toLower, List.length_map, ← List.map_drop, takeWhile_toLower _ isBlank_toLower]
      have hread := escape?_backslash d.toLower (cs.map Char.toLower)
      simp only [toLower_eq_iff (d := '\n') rfl, isHexDigit_toLower, hhex] at hread
      rw [List.map_cons, List.map_cons, toLower_eq_self (by decide), hread, escape?_backslash]
      split
      · exact .none
      · split
        · exact .some ⟨rfl, rfl⟩
        · exact .some ⟨toLower_toLower d, rfl⟩
  · rw [escape?_eq_none hslash,
      escape?_eq_none fun h => hslash ((head?_map_toLower cs (d := '\\') rfl).1 h)]
    exact .none

theorem caseless_escapeOr {p : Char → Bool} (hp : ∀ c, p c.toLower = p c) :
    Caseless SameChar (escapeOr p) (escapeOr p) := by
  rw [escapeOr_eq]
  refine caseless_firstOf (.cons caseless_escape? (.cons (caseless_char fun c => ?_) .nil))
  rw [hp c]
  split
  · exact .some (toLower_toLower c)
  · exact .none

theorem sameName_ofList {cs ds : List Char} (h : List.Forall₂ SameChar cs ds) :
    SameName (String.ofList cs) (String.ofList ds) := by
  rw [SameName, lowerCase_ofList, lowerCase_ofList, String.ofList_inj]
  induction h with
  | nil => rfl
  | cons hchar _ ih => rw [List.map_cons, List.map_cons, hchar, ih]

theorem name_toLower (cs : List Char) :
    SameName (name (cs.map Char.toLower)).1 (name cs).1 ∧
      (name (cs.map Char.toLower)).2 = (name cs).2 := by
  cases (caseless_escapeOr isNameChar_toLower).pieces cs with
  | some hpieces => exact ⟨sameName_ofList hpieces.1, hpieces.2⟩

theorem startsPlainName_toLower (cs : List Char) :
    startsPlainName (cs.map Char.toLower) = startsPlainName cs := by
  have hany (ds : List Char) : (ds.map Char.toLower).head?.any (· != '\n') =
      ds.head?.any (· != '\n') := by
    cases ds with
    | nil => rfl
    | cons d ds => exact apply_toLower (f := (· != '\n')) (by decide) d
  cases cs with
  | nil => rfl
  | cons c cs =>
    rw [List.map_cons, startsPlainName_cons, startsPlainName_cons]
    simp only [toLower_eq_iff (d := '\\') rfl, hany, isNameStart_toLower]

@[simp] theorem startsIdent_toLower (cs : List Char) :
    startsIdent (cs.map Char.toLower) = startsIdent cs := by
  have hhead (ds : List Char) : ((ds.map Char.toLower).head? == some '-') =
      (ds.head? == some '-') := by
    rw [Bool.eq_iff_iff, beq_iff_eq, beq_iff_eq]
    exact head?_map_toLower ds rfl
  cases cs with
  | nil => rfl
  | cons c cs =>
    have hplain := startsPlainName_toLower (c :: cs)
    rw [List.map_cons] at hplain ⊢
    rw [startsIdent_cons, startsIdent_cons, hplain]
    simp only [toLower_eq_iff (d := '-') rfl, hhead, startsPlainName_toLower]

theorem caseless_identStep : Caseless SameName identStep identStep := by
  intro cs
  simp only [identStep, startsIdent_toLower]
  split
  · exact .some (name_toLower cs)
  · exact .none

theorem caseless_nameStep : Caseless SameName nameStep nameStep := by
  intro cs
  simp only [nameStep, (name_toLower cs).2]
  split
  · exact .none
  · exact .some (name_toLower cs)

/-! ## Numbers -/

theorem signPart_toLower (cs : List Char) :
    signPart (cs.map Char.toLower) = (signPart cs).map Char.toLower := by
  have hsign (c : Char) : (c.toLower == '+' || c.toLower == '-') = (c == '+' || c == '-') :=
    apply_toLower (f := fun c => c == '+' || c == '-') (by decide) c
  simp only [signPart, ← List.map_take, List.filter_map, Function.comp_def, hsign]

theorem digitsPart_toLower (cs : List Char) :
    digitsPart (cs.map Char.toLower) = (digitsPart cs).map Char.toLower :=
  takeWhile_toLower cs isDigit_toLower

theorem fractionPart_toLower (cs : List Char) :
    fractionPart (cs.map Char.toLower) = (fractionPart cs).map Char.toLower := by
  have hcons (c : Char) (cs : List Char) : fractionPart (c :: cs) =
      if c = '.' ∧ digitsPart cs ≠ [] then '.' :: digitsPart cs else [] := by
    unfold fractionPart
    split <;> simp_all
  cases cs with
  | nil => rfl
  | cons c cs =>
    rw [List.map_cons, hcons, hcons, digitsPart_toLower]
    simp only [toLower_eq_iff (d := '.') rfl, ne_eq, List.map_eq_nil_iff]
    split <;> rfl

theorem andThen_toLower {p q : List Char → List Char}
    (hp : ∀ cs, p (cs.map Char.toLower) = (p cs).map Char.toLower)
    (hq : ∀ cs, q (cs.map Char.toLower) = (q cs).map Char.toLower) (cs : List Char) :
    andThen p q (cs.map Char.toLower) = (andThen p q cs).map Char.toLower := by
  simp only [andThen, hp, List.length_map, ← List.map_drop, hq, List.map_append]

theorem exponentPart_toLower (cs : List Char) :
    exponentPart (cs.map Char.toLower) = (exponentPart cs).map Char.toLower := by
  cases cs with
  | nil => rfl
  | cons e cs =>
    rw [List.map_cons, exponentPart_cons, exponentPart_cons,
      andThen_toLower signPart_toLower digitsPart_toLower]
    simp only [toLower_toLower, signPart_toLower, List.length_map, ← List.map_drop,
      digitsPart_toLower, ne_eq, List.map_eq_nil_iff]
    split <;> rfl

theorem numeral_toLower (cs : List Char) :
    numeral (cs.map Char.toLower) = (numeral cs).map Char.toLower :=
  andThen_toLower signPart_toLower (andThen_toLower digitsPart_toLower
    (andThen_toLower fractionPart_toLower exponentPart_toLower)) cs

theorem startsNumber_toLower (cs : List Char) :
    startsNumber (cs.map Char.toLower) = startsNumber cs := by
  have hnil (ds : List Char) : (ds.map Char.toLower != []) = (ds != []) := by
    cases ds <;> rfl
  simp only [startsNumber, startsUnsigned, signPart_toLower, List.length_map, ← List.map_drop,
    digitsPart_toLower, fractionPart_toLower, hnil]

theorem numeralValue_toLower (cs : List Char) :
    numeralValue (cs.map Char.toLower) = numeralValue cs := by
  rw [numeralValue, Numeral.read?_toLower, numeralValue]

theorem caseless_numeralStep :
    Caseless (fun ds es => ds = es.map Char.toLower) numeralStep numeralStep := by
  intro cs
  simp only [numeralStep, startsNumber_toLower]
  split
  · exact caseless_runOf numeral_toLower cs
  · exact .none

/-! ## Strings, addresses and comments -/

theorem caseless_stringStep {quote : Char} (hquote : isLetter quote = false) :
    Caseless (Option.Rel SameChar) (stringStep quote) (stringStep quote) := by
  have hclass (c : Char) : (c.toLower != quote && c.toLower != '\n') =
      (c != quote && c != '\n') := by
    simp only [bne, Bool.beq_eq_decide_eq, toLower_eq_iff hquote, toLower_eq_iff (d := '\n') rfl]
  rw [stringStep_eq]
  exact caseless_firstOf (.cons (caseless_literal rfl .none)
    (.cons ((caseless_escapeOr hclass).map fun _ _ hchar => .some hchar) .nil))

theorem sameChar_filterMap {cs ds : List (Option Char)}
    (h : List.Forall₂ (Option.Rel SameChar) cs ds) :
    List.Forall₂ SameChar (cs.filterMap id) (ds.filterMap id) := by
  induction h with
  | nil => exact .nil
  | cons hchar _ ih =>
    cases hchar with
    | none => exact ih
    | some hsame => exact .cons hsame ih

theorem caseless_stringEnd {quote : Char} (hquote : isLetter quote = false)
    {cs ds : List (Option Char)} (h : List.Forall₂ (Option.Rel SameChar) cs ds) :
    Caseless SameKind (stringEnd quote cs) (stringEnd quote ds) := by
  have hcontent := sameName_ofList (sameChar_filterMap h)
  intro es
  cases es with
  | nil => exact .some ⟨hcontent.kind .quotedString fun _ => rfl, rfl⟩
  | cons e es =>
    simp only [List.map_cons, stringEnd, toLower_eq_iff hquote]
    split
    · exact .some ⟨hcontent.kind .quotedString fun _ => rfl, rfl⟩
    · exact .some ⟨hcontent.kind .badString fun _ => rfl, rfl⟩

theorem caseless_stringBody {quote : Char} (hquote : isLetter quote = false) :
    Caseless SameKind (stringBody quote) (stringBody quote) :=
  (caseless_stringStep hquote).pieces.chain fun _ _ h => caseless_stringEnd hquote h

theorem caseless_blanks : Caseless (fun ds es => ds = es.map Char.toLower)
    (runOf (List.takeWhile isBlank)) (runOf (List.takeWhile isBlank)) :=
  caseless_runOf fun cs => takeWhile_toLower cs isBlank_toLower

theorem caseless_brokenUrl {s t : String} (h : SameName s t) :
    Caseless SameKind (brokenUrl s) (brokenUrl t) := by
  have hcloser : Caseless (fun _ _ => True) closer closer := fun cs =>
    .some ⟨trivial, by rw [← List.map_take, List.length_map]⟩
  have hclass (c : Char) : (c.toLower != ')') = (c != ')') :=
    apply_toLower (f := (· != ')')) (by decide) c
  exact (caseless_escapeOr hclass).pieces.chain fun _ _ _ =>
    hcloser.map fun _ _ _ => h.kind .badUrl fun _ => rfl

theorem caseless_urlEnd {s t : String} (h : SameName s t) :
    Caseless SameKind (urlEnd s) (urlEnd t) := by
  intro cs
  cases cs with
  | nil => exact .some ⟨h.kind .url fun _ => rfl, rfl⟩
  | cons c cs =>
    simp only [List.map_cons, urlEnd, toLower_eq_iff (d := ')') rfl]
    split
    · exact .some ⟨h.kind .url fun _ => rfl, rfl⟩
    · exact caseless_brokenUrl h (c :: cs)

theorem caseless_urlBody : Caseless SameKind urlBody urlBody :=
  caseless_blanks.chain fun _ _ _ => (caseless_escapeOr isUrlChar_toLower).pieces.chain
    fun _ _ haddress => caseless_blanks.chain fun _ _ _ => caseless_urlEnd (sameName_ofList haddress)

theorem caseless_urlStep : Caseless SameKind urlStep urlStep := by
  intro cs
  have hstarts : startsUrl (cs.map Char.toLower) = startsUrl cs := by
    have hquote (c : Char) : (c.toLower == '"' || c.toLower == '\'') = (c == '"' || c == '\'') :=
      apply_toLower (f := fun c => c == '"' || c == '\'') (by decide) c
    simp only [startsUrl, dropWhile_toLower cs isBlank_toLower, List.head?_map, Option.any_map,
      hquote]
  simp only [urlStep, hstarts]
  split
  · exact caseless_urlBody cs
  · exact .none

theorem commentContent_toLower (cs : List Char) :
    commentContent (cs.map Char.toLower) = (commentContent cs).map Char.toLower := by
  induction cs with
  | nil => rfl
  | cons c cs ih =>
    simp only [List.map_cons, commentContent_cons, toLower_eq_iff (d := '*') rfl,
      head?_map_toLower cs (d := '/') rfl, ih]
    split <;> rfl

theorem caseless_commentBody : Caseless SameKind commentBody commentBody := by
  intro cs
  refine .some ⟨?_, ?_⟩
  · simp only [SameKind, comment, commentContent_toLower, TokenKind.folded, lowerCase_ofList,
      map_toLower_toLower]
  · simp only [comment, commentContent_toLower, List.length_map, ← List.map_drop, ← List.map_take]

/-! ## All tokens -/

theorem caseless_identLikeStep : Caseless SameKind identLikeStep identLikeStep := by
  refine caseless_identStep.chain fun s t hname => caseless_firstOf (.cons ?_ (.cons ?_ (.cons ?_ .nil)))
  · rw [sameLetters_congr hname]
    split
    · exact caseless_urlStep.behind (by rfl)
    · exact caseless_none
  · exact (caseless_pass (R := SameKind) (hname.kind .function fun _ => rfl)).behind (by rfl)
  · exact caseless_pass (hname.kind .ident fun _ => rfl)

theorem caseless_hashStep : Caseless SameKind hashStep hashStep :=
  (caseless_firstOf (R := SameKind)
    (.cons (caseless_identStep.map fun _ _ h => h.kind .idHash fun _ => rfl)
      (.cons (caseless_nameStep.map fun _ _ h => h.kind .hash fun _ => rfl)
        (.cons (caseless_pass rfl) .nil)))).behind (by rfl)

theorem caseless_atStep : Caseless SameKind atStep atStep :=
  (caseless_firstOf (R := SameKind)
    (.cons (caseless_identStep.map fun _ _ h => h.kind .atKeyword fun _ => rfl)
      (.cons (caseless_pass rfl) .nil))).behind (by rfl)

theorem caseless_numberStep : Caseless SameKind numberStep numberStep := by
  refine caseless_numeralStep.chain fun ds es hdigits => ?_
  have hvalue : numeralValue ds = numeralValue es := by rw [hdigits, numeralValue_toLower]
  rw [hvalue]
  exact caseless_firstOf
    (.cons (caseless_identStep.map fun _ _ h => h.kind (.dimension (numeralValue es)) fun _ => rfl)
      (.cons ((caseless_pass (R := SameKind) rfl).behind (by rfl)) (.cons (caseless_pass rfl) .nil)))

theorem caseless_blankStep : Caseless SameKind blankStep blankStep := by
  have hblank : Caseless (fun _ _ => True) (char fun c => if isBlank c then some () else none)
      (char fun c => if isBlank c then some () else none) := by
    refine caseless_char fun c => ?_
    rw [isBlank_toLower]
    split
    · exact .some trivial
    · exact .none
  exact hblank.chain fun _ _ _ => caseless_blanks.map fun _ _ _ => rfl

theorem caseless_punctuation : Caseless SameKind (char punctuation?) (char punctuation?) := by
  refine caseless_char fun c => ?_
  rw [apply_toLower (f := punctuation?) (by decide) c]
  cases punctuation? c with
  | none => exact .none
  | some k => exact .some rfl

/-- A text in small letters starts with the same token in small letters. -/
theorem caseless_token : Caseless SameKind token token := by
  rw [show token = firstOf tokenSteps from funext token_eq]
  refine caseless_firstOf (List.forall₂_same.2 fun s hs => ?_)
  simp only [tokenSteps, List.mem_cons, List.not_mem_nil, or_false] at hs
  rcases hs with rfl | rfl | rfl | rfl | rfl | rfl | rfl | rfl | rfl | rfl | rfl | rfl
  · exact (caseless_commentBody.behind (by rfl)).behind (by rfl)
  · exact caseless_punctuation
  · exact caseless_blankStep
  · exact (caseless_stringBody rfl).behind (by rfl)
  · exact (caseless_stringBody rfl).behind (by rfl)
  · exact caseless_hashStep
  · exact caseless_atStep
  · exact caseless_numberStep
  · exact caseless_literal rfl rfl
  · exact caseless_literal rfl rfl
  · exact caseless_identLikeStep
  · exact caseless_char fun c => .some (congrArg TokenKind.delim (toLower_toLower c))

end Scan

namespace Token

/-- The token in small letters, without its place. -/
def folded (t : Token) : Token := ⟨t.kind.folded, .origin, t.text.map Char.toLower⟩

/-- The tokens of a text in small letters are those of the text, each in small letters. -/
theorem lex_toLower (start : Location) (cs : List Char) :
    (lex start (cs.map Char.toLower)).map folded = (lex start cs).map folded := by
  have hplace {ps qs : List (Piece Char TokenKind)} (h : List.Forall₂ (fun p q =>
      Scan.SameKind p.value q.value ∧ p.text = q.text.map Char.toLower) ps qs)
      (start start' : Location) :
      (place start ps).map folded = (place start' qs).map folded := by
    induction h generalizing start start' with
    | nil => rfl
    | @cons p q ps qs hpiece _ ih =>
      have hfolded : folded ⟨p.value, start, p.text⟩ = folded ⟨q.value, start', q.text⟩ := by
        simp only [folded, hpiece.2, map_toLower_toLower, Token.mk.injEq, and_true]
        exact hpiece.1
      rw [place, place, List.map_cons, List.map_cons, hfolded, ih]
  exact hplace (Scan.caseless_token.segment cs) start start

end Token
end GradientFallback
