import GradientFallback.Proofs.Value.TokenCrossing

/-! # The pieces of a value

The parts of a value are written with the tokens between its commas.  What a part starts with can be
read off its first token that is no whitespace, since a token takes up all of a word.
-/
namespace GradientFallback

namespace Token

/-- The tokens between the commas outside of all nesting, which `nest` counts. -/
def cutCommas (nest : Nat → TokenKind → Nat) (depth : Nat) : List Token → List (List Token)
  | [] => [[]]
  | t :: ts =>
    if depth = 0 ∧ t.kind = .comma then [] :: cutCommas nest 0 ts
    else (cutCommas nest (nest depth t.kind) ts).modifyHead (t :: ·)

/-- Nothing in the token misleads the cut of a value. -/
def isClear (t : Token) : Bool := t.kind.isClear t.text

/-- The first token that is no whitespace starts with the word. -/
def opensWith (word : List Char) (ts : List Token) : Bool :=
  (ts.dropWhile isWhitespace).head?.any fun t => word.isPrefixOf t.text

section Cut

variable (nest : Nat → TokenKind → Nat)

theorem cutCommas_ne_nil (depth : Nat) (ts : List Token) : cutCommas nest depth ts ≠ [] := by
  cases ts with
  | nil => exact List.cons_ne_nil _ _
  | cons t ts =>
    have hothers := cutCommas_ne_nil (nest depth t.kind) ts
    rw [cutCommas]
    split
    · exact List.cons_ne_nil _ _
    · obtain ⟨p, ps, hps⟩ := List.exists_cons_of_ne_nil hothers
      rw [hps]
      exact List.cons_ne_nil _ _

/-- The first piece stands at the front of the tokens, and each piece somewhere among them. -/
theorem cutCommas_isInfix (depth : Nat) (ts : List Token) :
    (∀ p ∈ (cutCommas nest depth ts).head?, p <+: ts) ∧
      ∀ p ∈ cutCommas nest depth ts, p <:+: ts := by
  induction ts generalizing depth with
  | nil => simp [cutCommas]
  | cons t ts ih =>
    rw [cutCommas]
    split
    · refine ⟨fun p hp => ?_, List.forall_mem_cons.2 ⟨List.nil_infix, fun p hp => ?_⟩⟩
      · cases hp
        exact List.nil_prefix
      · exact List.infix_cons ((ih 0).2 p hp)
    · obtain ⟨p, ps, hps⟩ :=
        List.exists_cons_of_ne_nil (cutCommas_ne_nil nest (nest depth t.kind) ts)
      have hpieces := ih (nest depth t.kind)
      rw [hps, List.forall_mem_cons] at hpieces
      have hfirst : t :: p <+: t :: ts := List.cons_prefix_cons.2 ⟨rfl, hpieces.1 p rfl⟩
      rw [hps, List.modifyHead_cons]
      refine ⟨fun q hq => ?_, List.forall_mem_cons.2 ⟨hfirst.isInfix, fun q hq => ?_⟩⟩
      · cases hq
        exact hfirst
      · exact List.infix_cons (hpieces.2.2 q hq)

end Cut

/-- The cut of a value is the cut of its tokens, if none of them misleads it. -/
theorem cutFrom_source {ts : List Token} (depth : Nat) (h : Spelled ts [])
    (hclear : ∀ t ∈ ts, t.isClear = true) :
    Comma.cutFrom (.outside depth) (source ts) =
      (cutCommas TokenKind.nestParens depth ts).map source := by
  induction ts generalizing depth with
  | nil => rfl
  | cons t ts ih =>
    obtain ⟨hread, hothers⟩ := spelled_cons.1 h
    rw [List.append_nil] at hread
    rw [List.forall_mem_cons] at hclear
    by_cases hcomma : depth = 0 ∧ t.kind = .comma
    · obtain ⟨rfl, hkind⟩ := hcomma
      have htext : t.text = [','] := by
        apply text_of_sign (h.written t List.mem_cons_self)
        rw [hkind]
        rfl
      rw [cutCommas, if_pos ⟨rfl, hkind⟩, List.map_cons, ← ih 0 hothers hclear.2, source_cons,
        htext]
      rfl
    · have hcrossed := Comma.crosses_token depth hread (by rw [List.take_left]; exact hclear.1)
        fun hkind hzero => hcomma ⟨hzero, hkind⟩
      rw [Comma.Crosses, List.drop_left, List.take_left, ih _ hothers hclear.2] at hcrossed
      rw [cutCommas, if_neg hcomma, source_cons, hcrossed]
      cases cutCommas TokenKind.nestParens (t.kind.nestParens depth) ts <;> rfl

theorem Spelled.of_isInfix {ts us : List Token} {x : List Char} (h : Spelled ts x)
    (hus : us <:+: ts) : ∃ y, Spelled us y := by
  obtain ⟨front, back, rfl⟩ := hus
  rw [spelled_append, spelled_append] at h
  exact ⟨_, h.1.2⟩

/-! ## Words at the front of a piece -/

/-- A token that starts with a blank is whitespace. -/
theorem isWhitespace_of_isBlank {t : Token} {x cs : List Char} {c : Char}
    (h : Scan.token (t.text ++ x) = some (t.kind, t.text.length)) (htext : t.text = c :: cs)
    (hc : isBlank c = true) : t.isWhitespace = true := by
  have hslash : c ≠ '/' := Scan.ne_of_class hc (by decide)
  rw [htext, List.cons_append, Scan.token_cons fun hcomment => hslash hcomment.1,
    Scan.punctuation?_eq_none (by decide) (by decide) hc, Scan.other, if_pos hc] at h
  have hkind : .whitespace = t.kind := congrArg Prod.fst (Option.some.inj h)
  rw [isWhitespace, ← hkind]
  rfl

theorem trimStart_source {ts : List Token} {x : List Char} (h : Spelled ts x) :
    trimStart (source ts) = source (ts.dropWhile isWhitespace) := by
  induction ts with
  | nil => rfl
  | cons t ts ih =>
    obtain ⟨hread, hothers⟩ := spelled_cons.1 h
    have hne := text_ne_nil hread
    by_cases ht : t.isWhitespace = true
    · rw [kind_of_isWhitespace ht, Scan.token_whitespace_iff hne] at hread
      rw [List.dropWhile_cons_of_pos ht, ← ih hothers, source_cons, trimStart,
        List.dropWhile_append_of_pos hread.1]
      rfl
    · obtain ⟨c, cs, htext⟩ := List.exists_cons_of_ne_nil hne
      have hc : ¬isBlank c = true := fun hblank => ht (isWhitespace_of_isBlank hread htext hblank)
      rw [List.dropWhile_cons_of_neg ht, source_cons, htext, trimStart, List.cons_append,
        List.dropWhile_cons_of_neg hc]

theorem prefix_trimEnd_iff {word : List Char} (hword : word.any isBlank = false)
    (cs : List Char) : word <+: trimEnd cs ↔ word <+: cs := by
  induction word generalizing cs with
  | nil => simp
  | cons c word ih =>
    rw [List.any_cons, Bool.or_eq_false_iff] at hword
    cases cs with
    | nil => rfl
    | cons d cs =>
      rw [trimEnd, dropTrailing_cons, List.cons_prefix_cons]
      split
      · next hblank =>
        rw [Bool.and_eq_true] at hblank
        apply iff_of_false
        · simp
        · rintro ⟨rfl, -⟩
          rw [hword.1] at hblank
          exact Bool.false_ne_true hblank.2
      · rw [List.cons_prefix_cons, ← trimEnd, ih hword.2]

section Word

variable {c : Char} {word : List Char}

/-- A token takes up all of a word that it starts with. -/
theorem prefix_source_iff {t : Token} {ts : List Token} {x : List Char}
    (hc : isLetter c = true) (hword : (c :: word).all Scan.isNameChar = true)
    (h : Spelled (t :: ts) x) : c :: word <+: source (t :: ts) ↔ c :: word <+: t.text := by
  constructor
  · rintro ⟨more, hmore⟩
    have hread := (spelled_cons.1 h).1
    rw [← List.append_assoc, ← source_cons, ← hmore, List.append_assoc, List.cons_append,
      Scan.token_of_isLetter hc, ← List.cons_append] at hread
    have hwidth : (Scan.identLike (c :: word ++ (more ++ x))).2 = t.text.length :=
      congrArg Prod.snd (Option.some.inj hread)
    have hname := Scan.name_append_width (List.all_eq_true.1 hword) (more ++ x)
    have hle := Scan.name_width_le_identLike (c :: word ++ (more ++ x))
    apply List.prefix_of_prefix_length_le ⟨more, hmore⟩ (List.prefix_append t.text (source ts))
    omega
  · exact fun hfront => hfront.trans (List.prefix_append t.text (source ts))

/-- The text of tokens starts with a word behind its blanks if and only if the first token that is
no whitespace does. -/
theorem opensWith_iff {ts : List Token} {x : List Char} (hc : isLetter c = true)
    (hword : (c :: word).all Scan.isNameChar = true) (hblank : (c :: word).any isBlank = false)
    (h : Spelled ts x) : opensWith (c :: word) ts = true ↔ c :: word <+: trim (source ts) := by
  obtain ⟨y, hy⟩ := h.of_isInfix (List.dropWhile_suffix isWhitespace).isInfix
  rw [trim, prefix_trimEnd_iff hblank, trimStart_source h, opensWith]
  rcases hbehind : ts.dropWhile isWhitespace with _ | ⟨t, us⟩
  · simp
  · rw [hbehind] at hy
    rw [prefix_source_iff hc hword hy, ← List.isPrefixOf_iff_prefix]
    rfl

end Word

end Token
end GradientFallback
