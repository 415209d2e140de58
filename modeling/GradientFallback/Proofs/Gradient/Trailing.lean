import GradientFallback.Proofs.Gradient.Reading
import GradientFallback.Proofs.Stylesheet.Landmarks
import GradientFallback.Proofs.Text.Joining
import GradientFallback.Proofs.Token.Enclosing

/-! # Text behind a gradient

A gradient ends with its closing parenthesis.  The tokens up to a closing parenthesis are the same
whatever stands behind it, and no gradient line goes beyond one, so the gradient at the front of a
text stays the same with more text behind.
-/
namespace GradientFallback
namespace Gradient

/-! ## The closing parenthesis -/

theorem not_rightParen_of_isTrivia {t : Token} (h : t.isTrivia = true) : t.kind ≠ .rightParen := by
  intro hkind
  rw [Token.isTrivia, hkind] at h
  exact Bool.false_ne_true h

theorem SidesAt.not_rightParen {ts : List Token} {sides : List Side} (h : SidesAt ts sides) :
    ∀ t ∈ ts, t.kind ≠ .rightParen := by
  have hside {t : Token} {s : Side} (ht : side? t.kind = some s) : t.kind ≠ .rightParen := by
    intro hkind
    rw [hkind] at ht
    exact absurd ht nofun
  cases h with
  | one side => exact List.forall_mem_singleton.2 (hside side)
  | two side trivia side' =>
    rw [List.cons_append, List.forall_mem_cons, List.forall_mem_append, List.forall_mem_singleton]
    exact ⟨hside side, fun t ht => not_rightParen_of_isTrivia (trivia t ht), hside side'⟩

theorem LineAt.not_rightParen {ts : List Token} {h : Heading Float} (hline : LineAt ts h) :
    ∀ t ∈ ts, t.kind ≠ .rightParen := by
  cases hline with
  | zero kind => exact List.forall_mem_singleton.2 (by rw [kind]; exact nofun)
  | angle kind => exact List.forall_mem_singleton.2 (by rw [kind]; exact nofun)
  | sides at_sides => exact at_sides.not_rightParen
  | @toSides t blank gap ts sides word whitespace trivia at_sides =>
    have hword : t.kind ≠ .rightParen := by
      intro hkind
      rw [hkind] at word
      exact absurd word nofun
    rw [List.cons_append, List.cons_append, List.forall_mem_cons, List.forall_mem_cons,
      List.forall_mem_append]
    exact ⟨hword, not_rightParen_of_isTrivia (Token.isTrivia_of_isWhitespace whitespace),
      fun u hu => not_rightParen_of_isTrivia (trivia u hu), at_sides.not_rightParen⟩

theorem StopsAt.exists_close {ts : List Token} {ss : List ColorStop} (h : StopsAt ts ss) :
    ∃ front close, ts = front ++ [close] ∧ close.kind = .rightParen := by
  induction h with
  | last stop trivia kind => exact ⟨_, _, rfl, kind⟩
  | @more ts gap rest comma s others stop trivia kind stops ih =>
    obtain ⟨front, close, rfl, hclose⟩ := ih
    exact ⟨ts ++ gap ++ comma :: front, close, by simp, hclose⟩

/-- A gradient line with its comma ends in front of every closing parenthesis. -/
theorem HeadedBy.exchange {front rest behind : List Token} {close : Token} {h : Heading Float}
    (hclose : close.kind = .rightParen) (hts : HeadedBy (front ++ close :: rest) h behind)
    (more : List Token) : ∃ behind', HeadedBy (front ++ close :: more) h behind' := by
  generalize hall : front ++ close :: rest = ts at hts
  cases hts with
  | @line gap line gap' _ comma _ trivia at_line trivia' kind =>
    rcases Token.append_eq_append_cons hall.symm with ⟨past, hpast, -⟩ | ⟨inner, rfl, hinner⟩
    · have hmem : close ∈ gap ++ line ++ gap' := hpast ▸ by simp
      rw [List.mem_append, List.mem_append] at hmem
      rcases hmem with (hmem | hmem) | hmem
      · exact absurd hclose (not_rightParen_of_isTrivia (trivia close hmem))
      · exact absurd hclose (at_line.not_rightParen close hmem)
      · exact absurd hclose (not_rightParen_of_isTrivia (trivia' close hmem))
    · cases inner with
      | nil =>
        obtain ⟨rfl, -⟩ := List.cons.inj hinner
        rw [kind] at hclose
        exact absurd hclose nofun
      | cons c inner =>
        obtain ⟨rfl, -⟩ := List.cons.inj hinner
        refine ⟨inner ++ close :: more, ?_⟩
        rw [List.append_assoc]
        exact .line trivia at_line trivia' kind

/-- The tokens of a gradient end with its closing parenthesis, and any others may follow. -/
theorem GradientAt.exists_close {ts : List Token} {g : Gradient Float} (h : GradientAt ts g) :
    ∃ front close rest, ts = front ++ [close] ++ rest ∧ close.kind = .rightParen ∧
      ∀ more, GradientAt (front ++ [close] ++ more) g := by
  cases h with
  | @headed gap ts stops rest t name h others trivia kind isGradient heading at_stops several =>
    obtain ⟨front, close, rfl, hclose⟩ := at_stops.exists_close
    generalize hbehind : front ++ [close] ++ rest = behind at heading
    cases heading with
    | @line gap' line gap'' _ comma _ trivia' at_line trivia'' kind' =>
      refine ⟨gap ++ t :: (gap' ++ line ++ gap'' ++ comma :: front), close, rest,
        by simp [← hbehind], hclose, fun more => ?_⟩
      have hmore : HeadedBy (gap' ++ line ++ gap'' ++ comma :: (front ++ [close] ++ more)) h
          (front ++ [close] ++ more) := .line trivia' at_line trivia'' kind'
      simpa using GradientAt.headed trivia kind isGradient hmore at_stops several
  | @plain gap stops rest t name others trivia kind isGradient no_heading at_stops several =>
    obtain ⟨front, close, rfl, hclose⟩ := at_stops.exists_close
    refine ⟨gap ++ t :: front, close, rest, by simp, hclose, fun more => ?_⟩
    have hnone : ∀ h behind, ¬HeadedBy (front ++ [close] ++ more) h behind := by
      intro h behind hheaded
      rw [List.append_assoc] at hheaded
      obtain ⟨behind', hheaded'⟩ := hheaded.exchange hclose rest
      exact no_heading h behind' (by simpa using hheaded')
    simpa using GradientAt.plain trivia kind isGradient hnone at_stops several

end Gradient

/-! ## Tokens up to a sign -/

/-- The tokens up to a closing sign are read in the same way wherever the same characters stand. -/
theorem Token.lex_of_sign {cs : List Char} {front rest : List Token} {t : Token} {c : Char}
    (h : lex .origin cs = front ++ [t] ++ rest) (ht : t.kind.sign? = some c) (hc : c ≠ '(')
    (more : List Char) : ∃ rest',
      lex .origin (source (front ++ [t]) ++ more) = front ++ [t] ++ rest' := by
  have hspelled : Spelled (front ++ [t] ++ rest) [] := h ▸ spelled_lex .origin cs
  have hfirm : Firm (front ++ [t]) := (spelled_append.1 hspelled).1.firm front ht hc
  have hcs : cs = source (front ++ [t]) ++ source rest := by
    rw [← source_append, ← h, source_lex]
  have hplaces : settle .origin (front ++ [t]) = front ++ [t] := by
    have hread := lex_source_append .origin (hfirm (source rest))
    rw [← hcs, h] at hread
    exact (List.append_inj hread (length_settle _ _).symm).1.symm
  have hread := lex_source_append .origin (hfirm more)
  rw [hplaces] at hread
  exact ⟨_, hread⟩

namespace Gradient

/-- The gradient at the front of a text stays the same with any text behind. -/
theorem parse?_append {text : String} {g : Gradient Float} (h : parse? text = some g)
    (more : String) : parse? (text ++ more) = some g := by
  obtain ⟨front, close, rest, hlex, hclose, hmore⟩ := (gradientAt_of_ofTokens? h).exists_close
  have hsign : close.kind.sign? = some ')' := by
    rw [hclose]
    rfl
  have hspelled := Token.spelled_lex .origin (unifyLineEnds text.toList)
  have htext : close.text = [')'] :=
    Token.text_of_sign (hspelled.written close (by simp [hlex])) hsign
  have hfront : Token.source front ++ [')'] <+: unifyLineEnds text.toList := by
    refine ⟨Token.source rest, ?_⟩
    rw [← Token.source_lex .origin (unifyLineEnds text.toList), hlex]
    simp [htext]
  obtain ⟨behind, hbehind⟩ := prefix_unifyLineEnds_append (by decide) hfront more.toList
  obtain ⟨rest', hrest'⟩ := Token.lex_of_sign hlex hsign (by decide) behind
  have hsource : Token.source (front ++ [close]) = Token.source front ++ [')'] := by
    simp [htext]
  rw [hsource, hbehind] at hrest'
  rw [parse?, String.toList_append, hrest']
  exact ofTokens?_of_gradientAt (hmore rest')

/-- A carriage return behind the parenthesis joins the line feed that is put behind it. -/
theorem parse?_append_lineFeed :
    parse? "linear-gradient(to top,red,blue)\r" =
        some ⟨.corner [.top] true, [⟨"red", none⟩, ⟨"blue", none⟩]⟩ ∧
      parse? ("linear-gradient(to top,red,blue)\r" ++ "\n)(") =
        some ⟨.corner [.top] true, [⟨"red", none⟩, ⟨"blue", none⟩]⟩ := by
  have h : parse? "linear-gradient(to top,red,blue)\r" =
      some ⟨.corner [.top] true, [⟨"red", none⟩, ⟨"blue", none⟩]⟩ := by rfl
  exact ⟨h, parse?_append h "\n)("⟩

end Gradient
end GradientFallback
