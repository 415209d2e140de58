import GradientFallback.Proofs.Token.Spelling
import GradientFallback.Proofs.Text.SmallLetters

/-! # Numerals in a stylesheet

A numeral is a sign, a mantissa and an exponent, where the sign and the exponent may be missing; a
mantissa is digits, perhaps with a point and digits behind them, or a point with digits.  A number is
read as a token exactly where a text starts with a numeral.  Of all numerals in front of the text the
longest one is taken, and it always has a finite value.
-/
namespace GradientFallback

/-- The kinds with a number in them. -/
def TokenKind.isNumeric : TokenKind → Bool
  | dimension _ _ => true
  | percentage _ => true
  | number _ => true
  | _ => false

/-! ## The form of a numeral -/

namespace Literal

/-- One digit or more. -/
structure Digits (cs : List Char) : Prop where
  ne_nil : cs ≠ []
  all : ∀ c ∈ cs, isDigit c = true

inductive Sign : List Char → Prop
  | absent : Sign []
  | plus : Sign ['+']
  | minus : Sign ['-']

inductive Mantissa : List Char → Prop
  | whole {ds : List Char} (digits : Digits ds) : Mantissa ds
  | pointed {ds fs : List Char} (digits : Digits ds) (fraction : Digits fs) :
      Mantissa (ds ++ '.' :: fs)
  | fraction {fs : List Char} (fraction : Digits fs) : Mantissa ('.' :: fs)

inductive Exponent : List Char → Prop
  | absent : Exponent []
  | present {e : Char} {s ds : List Char} (letter : e = 'e' ∨ e = 'E') (sign : Sign s)
      (digits : Digits ds) : Exponent (e :: (s ++ ds))

end Literal

/-- The texts that write a number. -/
inductive Literal : List Char → Prop
  | mk {s m x : List Char} (sign : Literal.Sign s) (mantissa : Literal.Mantissa m)
      (exponent : Literal.Exponent x) : Literal (s ++ (m ++ x))

/-- `p` is the longest text with `P` in front of `cs`. -/
structure Longest (P : List Char → Prop) (cs p : List Char) : Prop where
  holds : P p
  isPrefix : p <+: cs
  length_le : ∀ q, P q → q <+: cs → q.length ≤ p.length

namespace Literal

variable {s ds f m x cs r : List Char}

/-- A point with digits, or nothing. -/
inductive Fraction : List Char → Prop
  | absent : Fraction []
  | present {fs : List Char} (digits : Digits fs) : Fraction ('.' :: fs)

/-- A mantissa is digits and a fraction, of which one may be missing. -/
theorem Mantissa.exists_parts (h : Mantissa m) :
    ∃ ds f, m = ds ++ f ∧ (∀ c ∈ ds, isDigit c = true) ∧ Fraction f ∧ (ds ≠ [] ∨ f ≠ []) := by
  cases h with
  | whole digits => exact ⟨m, [], (List.append_nil m).symm, digits.all, .absent, .inl digits.ne_nil⟩
  | pointed digits fraction => exact ⟨_, _, rfl, digits.all, .present fraction, .inl digits.ne_nil⟩
  | fraction fraction => exact ⟨[], _, rfl, nofun, .present fraction, .inr (List.cons_ne_nil _ _)⟩

theorem mantissa_append (hds : ∀ c ∈ ds, isDigit c = true) (hf : Fraction f)
    (hne : ds ≠ [] ∨ f ≠ []) : Mantissa (ds ++ f) := by
  by_cases hnil : ds = []
  · cases hf with
    | absent => exact absurd rfl (hne.resolve_left (not_not_intro hnil))
    | present digits =>
      rw [hnil]
      exact .fraction digits
  · cases hf with
    | absent =>
      rw [List.append_nil]
      exact .whole ⟨hnil, hds⟩
    | present digits => exact .pointed ⟨hnil, hds⟩ digits

/-! ### What a part starts with -/

/-- The characters that a mantissa may start with. -/
def leads (c : Char) : Bool := isDigit c || c == '.'

theorem leads_toLower (c : Char) : leads c.toLower = leads c := apply_toLower (by decide) c

/-- What starts like a mantissa does not start with any other character. -/
theorem ne_of_leads {d : Char} (h : ∀ c ∈ r.head?, leads c = true) (hd : leads d = false) :
    ∀ c ∈ r.head?, c ≠ d := by
  rintro c hc rfl
  rw [h c hc] at hd
  exact absurd hd nofun

theorem Digits.leads (h : Digits ds) (r : List Char) : ∀ c ∈ (ds ++ r).head?, leads c = true := by
  obtain ⟨c, ds, rfl⟩ := List.exists_cons_of_ne_nil h.ne_nil
  rintro c ⟨⟩
  rw [Literal.leads, h.all c List.mem_cons_self, Bool.true_or]

theorem Mantissa.leads (h : Mantissa m) (r : List Char) :
    ∀ c ∈ (m ++ r).head?, leads c = true := by
  cases h with
  | whole digits => exact digits.leads r
  | pointed digits fraction =>
    rw [List.append_assoc]
    exact digits.leads _
  | fraction fraction =>
    rintro c ⟨⟩
    rfl

theorem Mantissa.ne_nil (h : Mantissa m) : m ≠ [] := by
  cases h with
  | whole digits => exact digits.ne_nil
  | pointed digits => exact List.append_ne_nil_of_left_ne_nil digits.ne_nil _
  | fraction => exact List.cons_ne_nil _ _

theorem letter_iff {e : Char} : e = 'e' ∨ e = 'E' ↔ e.toLower = 'e' := by
  constructor
  · rintro (rfl | rfl) <;> rfl
  · intro he
    have hcapital : (capitals.all fun c => c.toLower != 'e' || c == 'E') = true := by decide
    by_cases hc : e ∈ capitals
    · have hthis := List.all_eq_true.1 hcapital e hc
      rw [he] at hthis
      exact .inr (by simpa using hthis)
    · exact .inl ((toLower_eq_self hc).symm.trans he)

theorem Exponent.leads (h : Exponent x) : ∀ c ∈ x.head?, leads c = false := by
  cases h with
  | absent => exact nofun
  | present letter =>
    rintro c ⟨⟩
    rw [← leads_toLower, letter_iff.1 letter]
    rfl

/-- There is no digit behind those in front of a numeral. -/
theorem isDigit_behind (hf : Fraction f) (hx : Exponent x) :
    ∀ c ∈ (f ++ x).head?, isDigit c = false := by
  cases hf with
  | absent => exact fun c hc => (Bool.or_eq_false_iff.1 (hx.leads c hc)).1
  | present =>
    rintro c ⟨⟩
    rfl

/-! ## The value of a numeral -/

theorem takeWhile_isDigit (hds : ∀ c ∈ ds, isDigit c = true) (hr : ∀ c ∈ r.head?, isDigit c = false) :
    (ds ++ r).takeWhile isDigit = ds := by
  rw [List.takeWhile_append_of_pos hds]
  cases r with
  | nil => simp
  | cons c r => simp [hr c rfl]

theorem span_isDigit (hds : ∀ c ∈ ds, isDigit c = true) (hr : ∀ c ∈ r.head?, isDigit c = false) :
    (ds ++ r).span isDigit = (ds, r) := by
  have hdrop : (ds ++ r).dropWhile isDigit = r := by
    rw [List.dropWhile_append_of_pos hds]
    cases r with
    | nil => rfl
    | cons c r => simp [hr c rfl]
  rw [List.span_eq_takeWhile_dropWhile, takeWhile_isDigit hds hr, hdrop]

/-- A sign is passed in front of anything that starts like a mantissa. -/
theorem Sign.decimal_sign (h : Sign s) (hr : ∀ c ∈ r.head?, leads c = true) :
    (Decimal.sign (s ++ r)).2 = r := by
  cases h with
  | absent =>
    rw [List.nil_append]
    unfold Decimal.sign
    split
    · exact absurd (hr '+' rfl) nofun
    · exact absurd (hr '-' rfl) nofun
    · rfl
  | plus => rfl
  | minus => rfl

theorem Fraction.decimal_fraction (hf : Fraction f) (hx : Exponent x) :
    Decimal.fraction (f ++ x) = (f.tail, x) := by
  cases hf with
  | absent =>
    rw [List.nil_append]
    unfold Decimal.fraction
    split
    · exact absurd (hx.leads '.' rfl) nofun
    · rfl
  | present digits => exact span_isDigit digits.all (isDigit_behind .absent hx)

theorem Exponent.exponent?_isSome (h : Exponent x) : (Decimal.exponent? x).isSome := by
  cases h with
  | absent => rfl
  | @present e s ds letter sign digits =>
    have hsign : (Decimal.sign (s ++ ds)).2 = ds := by
      have hleads := digits.leads []
      rw [List.append_nil] at hleads
      exact sign.decimal_sign hleads
    have hreads : e.toLower = 'e' ∧ ds ≠ [] ∧ ds.all isDigit = true :=
      ⟨letter_iff.1 letter, digits.ne_nil, List.all_eq_true.2 digits.all⟩
    simp only [Decimal.exponent?, hsign, if_pos hreads, Option.isSome_some]

theorem Mantissa.unsigned?_isSome (hm : Mantissa m) (hx : Exponent x) (negative : Bool) :
    (Decimal.unsigned? negative (m ++ x)).isSome := by
  obtain ⟨ds, f, rfl, hds, hf, hne⟩ := hm.exists_parts
  have hparts : ¬(ds = [] ∧ f.tail = []) := by
    rintro ⟨hnil, htail⟩
    cases hf with
    | absent => exact hne.elim (absurd hnil) (absurd rfl)
    | present digits => exact digits.ne_nil htail
  rw [List.append_assoc]
  simp only [Decimal.unsigned?, span_isDigit hds (isDigit_behind hf hx), hf.decimal_fraction hx,
    if_neg hparts, Option.isSome_map, hx.exponent?_isSome]

/-- A numeral is read, and as a finite number. -/
theorem exists_read? (h : Literal cs) : ∃ d, Numeral.read? cs = some (.finite d) := by
  cases h with
  | @mk s m x sign mantissa exponent =>
    obtain ⟨negative, hsign⟩ : ∃ negative, Decimal.sign (s ++ (m ++ x)) = (negative, m ++ x) :=
      ⟨_, Prod.ext rfl (sign.decimal_sign (mantissa.leads x))⟩
    -- The words for infinity and for no number start with a letter.
    have hword (word : String) (hfirst : word.toList.head?.any leads = false)
        (hne : word.toList ≠ []) : String.ofList ((m ++ x).map Char.toLower) ≠ word := by
      rintro rfl
      obtain ⟨c, r, hr⟩ :=
        List.exists_cons_of_ne_nil (List.append_ne_nil_of_left_ne_nil mantissa.ne_nil x)
      have hc := mantissa.leads x c (by rw [hr]; rfl)
      rw [String.toList_ofList, hr, List.map_cons, List.head?_cons, Option.any_some, leads_toLower,
        hc] at hfirst
      exact absurd hfirst nofun
    obtain ⟨d, hd⟩ := Option.isSome_iff_exists.1 (mantissa.unsigned?_isSome exponent negative)
    refine ⟨d, ?_⟩
    simp only [Numeral.read?, hsign, hword "inf" (by decide) (by decide),
      hword "infinity" (by decide) (by decide), hword "nan" (by decide) (by decide), or_self,
      if_false, hd, Option.map_some]

end Literal

/-! ## Scanning -/

namespace Scan

open Literal

variable {s ds f m x cs r : List Char}

theorem sign_signPart (cs : List Char) : Sign (signPart cs) := by
  cases cs with
  | nil => exact .absent
  | cons c cs =>
    by_cases hc : (c == '+' || c == '-') = true
    · have hpart : signPart (c :: cs) = [c] := by simp [signPart, hc]
      rw [hpart]
      rw [Bool.or_eq_true, beq_iff_eq, beq_iff_eq] at hc
      rcases hc with rfl | rfl
      · exact .plus
      · exact .minus
    · have hpart : signPart (c :: cs) = [] := by simp [signPart, hc]
      rw [hpart]
      exact .absent

theorem signPart_append (hs : Sign s) (hr : ∀ c ∈ r.head?, leads c = true) :
    signPart (s ++ r) = s := by
  cases hs with
  | absent =>
    cases r with
    | nil => rfl
    | cons c r =>
      have hplus : c ≠ '+' := ne_of_leads hr (by decide) c rfl
      have hminus : c ≠ '-' := ne_of_leads hr (by decide) c rfl
      simp [signPart, hplus, hminus]
  | plus => rfl
  | minus => rfl

theorem isDigit_of_mem_digitsPart (cs : List Char) : ∀ c ∈ digitsPart cs, isDigit c = true :=
  fun _ => List.mem_takeWhile_imp

theorem fraction_fractionPart (cs : List Char) : Fraction (fractionPart cs) := by
  unfold fractionPart
  split
  · split
    · exact .absent
    · next hne => exact .present ⟨hne, isDigit_of_mem_digitsPart _⟩
  · exact .absent

theorem exponent_exponentPart (cs : List Char) : Exponent (exponentPart cs) := by
  cases cs with
  | nil => exact .absent
  | cons e cs =>
    simp only [exponentPart]
    split
    · next h =>
      exact .present (letter_iff.2 h.1) (sign_signPart cs) ⟨h.2, isDigit_of_mem_digitsPart _⟩
    · exact .absent

theorem mantissa_scanned (h : startsUnsigned cs = true) :
    Mantissa (digitsPart cs ++ fractionPart (cs.drop (digitsPart cs).length)) := by
  refine mantissa_append (isDigit_of_mem_digitsPart cs) (fraction_fractionPart _) ?_
  rw [startsUnsigned, Bool.or_eq_true, bne_iff_ne, bne_iff_ne] at h
  by_cases hnil : digitsPart cs = []
  · rw [hnil]
    exact h.imp_left (absurd hnil)
  · exact .inl hnil

/-- What is scanned behind a sign. -/
def unsignedPart : List Char → List Char :=
  andThen digitsPart (andThen fractionPart exponentPart)

theorem exists_unsignedPart (h : startsUnsigned cs = true) :
    ∃ m x, unsignedPart cs = m ++ x ∧ Mantissa m ∧ Exponent x :=
  ⟨_, _, (List.append_assoc _ _ _).symm, mantissa_scanned h, exponent_exponentPart _⟩

theorem literal_numeral (h : startsNumber cs = true) : Literal (numeral cs) := by
  obtain ⟨m, x, hparts, hm, hx⟩ := exists_unsignedPart h
  have hnumeral : numeral cs = signPart cs ++ (m ++ x) := congrArg (signPart cs ++ ·) hparts
  rw [hnumeral]
  exact .mk (sign_signPart cs) hm hx

/-! ### Nothing longer -/

/-- Digits in front of a text are among those that are scanned, and are all of them where something
else is said to follow. -/
theorem digitsPart_of_prefix (hds : ∀ c ∈ ds, isDigit c = true)
    (hr : ∀ c ∈ r.head?, isDigit c = false) (h : ds ++ r <+: cs) :
    (r = [] ∧ ds.length ≤ (digitsPart cs).length) ∨
      (digitsPart cs = ds ∧ r <+: cs.drop ds.length) := by
  obtain ⟨more, rfl⟩ := h
  rw [List.append_assoc]
  by_cases hnil : r = []
  · refine .inl ⟨hnil, ?_⟩
    rw [hnil, digitsPart, List.takeWhile_append_of_pos hds, List.length_append]
    exact Nat.le_add_right _ _
  · refine .inr ⟨takeWhile_isDigit hds ?_, ?_⟩
    · obtain ⟨c, r, rfl⟩ := List.exists_cons_of_ne_nil hnil
      exact hr
    · rw [List.drop_left]
      exact List.prefix_append r more

theorem exponentPart_length (hx : Exponent x) (h : x <+: cs) :
    x.length ≤ (exponentPart cs).length := by
  cases hx with
  | absent => exact Nat.zero_le _
  | @present e s ds letter sign digits =>
    obtain ⟨more, rfl⟩ := h
    have hsign : signPart (s ++ (ds ++ more)) = s := signPart_append sign (digits.leads more)
    have hdigits : digitsPart (ds ++ more) = ds ++ digitsPart more :=
      List.takeWhile_append_of_pos digits.all
    have hreads : e.toLower = 'e' ∧ ds ++ digitsPart more ≠ [] :=
      ⟨letter_iff.1 letter, List.append_ne_nil_of_left_ne_nil digits.ne_nil _⟩
    have hpart : exponentPart (e :: (s ++ (ds ++ more))) = e :: (s ++ (ds ++ digitsPart more)) := by
      simp only [exponentPart, hsign, List.drop_left, hdigits, if_pos hreads]
    rw [List.cons_append, List.append_assoc, hpart]
    simp only [List.length_cons, List.length_append]
    omega

theorem fractionPart_nil (hx : ∀ c ∈ cs.head?, leads c = false) : fractionPart cs = [] := by
  unfold fractionPart
  split
  · exact absurd (hx '.' rfl) nofun
  · rfl

/-- Where an exponent follows at once, no fraction is scanned. -/
theorem fractionPart_of_exponent (hx : Exponent x) (hne : x ≠ []) (h : x <+: cs) :
    fractionPart cs = [] := by
  obtain ⟨more, rfl⟩ := h
  obtain ⟨c, x, rfl⟩ := List.exists_cons_of_ne_nil hne
  exact fractionPart_nil hx.leads

theorem andThen_length (p q : List Char → List Char) (cs : List Char) :
    (andThen p q cs).length = (p cs).length + (q (cs.drop (p cs).length)).length :=
  List.length_append

theorem fraction_length (hf : Fraction f) (hx : Exponent x) (h : f ++ x <+: cs) :
    (f ++ x).length ≤ (andThen fractionPart exponentPart cs).length := by
  rw [andThen_length]
  cases hf with
  | absent =>
    by_cases hnil : x = []
    · rw [hnil]
      exact Nat.zero_le _
    · rw [fractionPart_of_exponent hx hnil h]
      simpa using exponentPart_length hx h
  | @present fs digits =>
    obtain ⟨more, rfl⟩ := h
    have hprefix : fs ++ x <+: fs ++ x ++ more := List.prefix_append _ _
    have hscanned : fractionPart ('.' :: fs ++ x ++ more) =
        '.' :: digitsPart (fs ++ x ++ more) := by
      have hne : digitsPart (fs ++ x ++ more) ≠ [] := by
        rw [digitsPart, List.append_assoc, List.takeWhile_append_of_pos digits.all]
        exact List.append_ne_nil_of_left_ne_nil digits.ne_nil _
      exact if_neg hne
    rw [hscanned]
    rcases digitsPart_of_prefix digits.all (isDigit_behind .absent hx) hprefix with
      ⟨rfl, hlength⟩ | ⟨hall, hbehind⟩
    · simp only [List.append_nil, List.length_cons] at hlength ⊢
      omega
    · have hexponent := exponentPart_length hx hbehind
      rw [hall]
      simp only [List.length_cons, List.length_append, List.cons_append, List.drop_succ_cons]
        at hexponent ⊢
      omega

theorem mantissa_length (hm : Mantissa m) (hx : Exponent x) (h : m ++ x <+: cs) :
    (m ++ x).length ≤ (unsignedPart cs).length := by
  obtain ⟨ds, f, rfl, hds, hf, -⟩ := hm.exists_parts
  rw [List.append_assoc] at h ⊢
  rw [unsignedPart, andThen_length]
  rcases digitsPart_of_prefix hds (isDigit_behind hf hx) h with ⟨hnil, hlength⟩ | ⟨hall, hbehind⟩
  · rw [hnil, List.append_nil]
    exact hlength.trans (Nat.le_add_right _ _)
  · have hrest := fraction_length hf hx hbehind
    rw [hall, List.length_append]
    omega

/-- Behind the sign of a numeral in front of a text, scanning goes on with its mantissa. -/
theorem signPart_of_prefix (hs : Sign s) (hm : Mantissa m) (h : s ++ (m ++ x) <+: cs) :
    signPart cs = s ∧ m ++ x <+: cs.drop s.length := by
  obtain ⟨more, rfl⟩ := h
  rw [List.append_assoc]
  refine ⟨signPart_append hs ?_, ?_⟩
  · rw [List.append_assoc]
    exact hm.leads _
  · rw [List.drop_left]
    exact List.prefix_append _ _

theorem numeral_length {p : List Char} (hp : Literal p) (h : p <+: cs) :
    p.length ≤ (numeral cs).length := by
  cases hp with
  | @mk s m x sign mantissa exponent =>
    obtain ⟨hsign, hbehind⟩ := signPart_of_prefix sign mantissa h
    have hunsigned := mantissa_length mantissa exponent hbehind
    have hlength : (numeral cs).length =
        (signPart cs).length + (unsignedPart (cs.drop (signPart cs).length)).length :=
      andThen_length signPart unsignedPart cs
    rw [hlength, hsign, List.length_append]
    omega

theorem startsUnsigned_of_prefix (hm : Mantissa m) (h : m ++ x <+: cs) :
    startsUnsigned cs = true := by
  rw [startsUnsigned, Bool.or_eq_true, bne_iff_ne, bne_iff_ne]
  obtain ⟨more, rfl⟩ := h
  have hdigits {ds r : List Char} (digits : Digits ds) : digitsPart (ds ++ r) ≠ [] := by
    rw [digitsPart, List.takeWhile_append_of_pos digits.all]
    exact List.append_ne_nil_of_left_ne_nil digits.ne_nil _
  cases hm with
  | whole digits =>
    rw [List.append_assoc]
    exact .inl (hdigits digits)
  | pointed digits fraction =>
    rw [List.append_assoc, List.append_assoc]
    exact .inl (hdigits digits)
  | @fraction fs fraction =>
    have hscanned : fractionPart ('.' :: (fs ++ x ++ more)) = '.' :: digitsPart (fs ++ x ++ more) := by
      rw [List.append_assoc]
      exact if_neg (hdigits fraction)
    refine .inr ?_
    rw [List.cons_append, List.cons_append, hscanned]
    exact List.cons_ne_nil _ _

/-- A number is scanned exactly where a numeral stands. -/
theorem startsNumber_iff (cs : List Char) :
    startsNumber cs = true ↔ ∃ p, Literal p ∧ p <+: cs := by
  constructor
  · intro h
    exact ⟨numeral cs, literal_numeral h, numeral_isPrefix cs⟩
  · rintro ⟨p, ⟨sign, mantissa, exponent⟩, hprefix⟩
    obtain ⟨hsign, hbehind⟩ := signPart_of_prefix sign mantissa hprefix
    rw [startsNumber, hsign]
    exact startsUnsigned_of_prefix mantissa hbehind

theorem longest_numeral (h : startsNumber cs = true) : Longest Literal cs (numeral cs) :=
  ⟨literal_numeral h, numeral_isPrefix cs, fun _ hp => numeral_length hp⟩

/-! ### Number tokens -/

/-- The kind of a number with the value `v`, and how much of the text `rest` behind its numeral
belongs to it. -/
inductive Measured (v : Float) (rest : List Char) : TokenKind → Nat → Prop
  | dimension (unit : startsIdent rest = true) :
      Measured v rest (.dimension v (name rest).1) (name rest).2
  | percentage (plain : startsIdent rest = false) (sign : rest.head? = some '%') :
      Measured v rest (.percentage v) 1
  | number (plain : startsIdent rest = false) (bare : rest.head? ≠ some '%') :
      Measured v rest (.number v) 0

theorem numeric_measured (cs : List Char) : ∃ k w, numeric cs = (k, (numeral cs).length + w) ∧
    Measured (numeralValue (numeral cs)) (cs.drop (numeral cs).length) k w := by
  simp only [numeric]
  split
  · next hunit => exact ⟨_, _, rfl, .dimension hunit⟩
  split
  · next hplain hsign => exact ⟨_, _, rfl, .percentage (Bool.eq_false_iff.2 hplain) hsign⟩
  · next hplain hbare => exact ⟨_, _, rfl, .number (Bool.eq_false_iff.2 hplain) hbare⟩

/-- What starts no numeral is no number, whatever else it is. -/
theorem other_isNumeric {c : Char} (h : ¬startsNumber (c :: cs) = true) :
    (other c cs).1.isNumeric = false := by
  have hread := other_reading c cs
  generalize other c cs = r at hread ⊢
  cases hread with
  | blanks blank => rfl
  | string quote => exact string_kind (P := (·.isNumeric = false)) (fun _ => rfl) (fun _ => rfl) c cs
  | hash sign => exact hash_kind (P := (·.isNumeric = false)) rfl (fun _ => rfl) (fun _ => rfl) cs
  | atSign sign => exact atSign_kind (P := (·.isNumeric = false)) rfl (fun _ => rfl) cs
  | numeric starts => exact absurd starts h
  | commentClose sign more => rfl
  | commentOpen sign more => rfl
  | identLike starts =>
    exact identLike_kind (P := (·.isNumeric = false)) (fun _ => rfl) (fun _ => rfl) (fun _ => rfl)
      (fun _ => rfl) _
  | delim unquoted starts => rfl

theorem startsNumber_of_token {k : TokenKind} {n : Nat} (h : token cs = some (k, n))
    (hk : k.isNumeric = true) : startsNumber cs = true := by
  cases token_reading h with
  | comment cs => exact absurd hk Bool.false_ne_true
  | punctuation cs sign =>
    rw [punctuation?_eq_some_iff] at sign
    cases k <;> simp_all [TokenKind.isNumeric, TokenKind.sign?]
  | other cs sign =>
    by_contra hnot
    rw [other_isNumeric hnot] at hk
    exact Bool.false_ne_true hk

/-- The characters that a number may start with. -/
def begins (c : Char) : Bool := leads c || c == '+' || c == '-'

theorem begins_of_startsNumber {c : Char} (h : startsNumber (c :: cs) = true) :
    begins c = true := by
  obtain ⟨p, ⟨sign, mantissa, exponent⟩, hprefix⟩ := (startsNumber_iff _).1 h
  cases sign with
  | absent =>
    obtain ⟨more, hmore⟩ := hprefix
    rw [List.nil_append, List.append_assoc] at hmore
    have hc := mantissa.leads _ c (by rw [hmore]; rfl)
    rw [begins, hc]
    rfl
  | plus =>
    obtain rfl : '+' = c := (List.cons_prefix_cons.1 hprefix).1
    rfl
  | minus =>
    obtain rfl : '-' = c := (List.cons_prefix_cons.1 hprefix).1
    rfl

theorem token_of_startsNumber (h : startsNumber cs = true) : token cs = some (numeric cs) := by
  cases cs with
  | nil => exact absurd h nofun
  | cons c cs =>
    have hc := begins_of_startsNumber h
    have hne {d : Char} (hd : begins d = false) : c ≠ d := by
      rintro rfl
      rw [hc] at hd
      exact absurd hd nofun
    have hblank : ¬isBlank c = true := by
      intro hblank
      simp only [begins, leads, isDigit_of_isBlank hblank, Bool.false_or, Bool.or_eq_true,
        beq_iff_eq] at hc
      rcases hc with (rfl | rfl) | rfl <;> exact absurd hblank (by decide)
    have hsign : punctuation? c = none := by
      unfold punctuation?
      split <;> first | rfl | exact absurd hc (by decide)
    have hquote : ¬(c = '"' ∨ c = '\'') :=
      fun hquote => hquote.elim (hne (by decide)) (hne (by decide))
    have hcomment : ¬(c = '/' ∧ cs.head? = some '*') := fun hcomment => hne (by decide) hcomment.1
    have hother : other c cs = numeric (c :: cs) := by
      rw [other, if_neg hblank, if_neg hquote, if_neg (hne (by decide)), if_neg (hne (by decide)),
        if_pos h]
    rw [token_cons hcomment, hsign]
    exact congrArg some hother

/-- A token is a number exactly where its text starts with a numeral.  Then the longest one is taken,
it is read as a finite number, which is the value of the token, and the token ends behind it or
behind the unit or percent sign that follows at once. -/
theorem numeral_longest {k : TokenKind} {n : Nat} (h : token cs = some (k, n)) :
    (k.isNumeric = true ↔ ∃ p, Literal p ∧ p <+: cs) ∧
      (k.isNumeric = true → Longest Literal cs (numeral cs) ∧
        ∃ d w, Numeral.read? (numeral cs) = some (.finite d) ∧ n = (numeral cs).length + w ∧
          Measured d.toFloat (cs.drop (numeral cs).length) k w) := by
  obtain ⟨l, w, hwidth, hmeasured⟩ := numeric_measured cs
  have hnumber (hstarts : startsNumber cs = true) : k = l ∧ n = (numeral cs).length + w := by
    rw [token_of_startsNumber hstarts, hwidth, Option.some.injEq, Prod.mk.injEq] at h
    exact ⟨h.1.symm, h.2.symm⟩
  refine ⟨⟨fun hk => (startsNumber_iff cs).1 (startsNumber_of_token h hk), fun hp => ?_⟩,
    fun hk => ?_⟩
  · obtain ⟨rfl, -⟩ := hnumber ((startsNumber_iff cs).2 hp)
    cases hmeasured <;> rfl
  · have hstarts := startsNumber_of_token h hk
    obtain ⟨rfl, rfl⟩ := hnumber hstarts
    obtain ⟨d, hd⟩ := (literal_numeral hstarts).exists_read?
    have hvalue : numeralValue (numeral cs) = d.toFloat := by
      rw [numeralValue, hd]
      rfl
    rw [hvalue] at hmeasured
    exact ⟨longest_numeral hstarts, d, w, hd, rfl, hmeasured⟩

/-- In `+.5e3e-x` the second letter e starts the unit. -/
theorem numeral_longest_unit :
    token ['+', '.', '5', 'e', '3', 'e', '-', 'x'] =
        some (.dimension (numeralValue ['+', '.', '5', 'e', '3']) "e-x", 8) ∧
      Longest Literal ['+', '.', '5', 'e', '3', 'e', '-', 'x'] ['+', '.', '5', 'e', '3'] := by
  have h : token ['+', '.', '5', 'e', '3', 'e', '-', 'x'] =
      some (.dimension (numeralValue ['+', '.', '5', 'e', '3']) "e-x", 8) := by rfl
  exact ⟨h, ((numeral_longest h).2 rfl).1⟩

end Scan
end GradientFallback
