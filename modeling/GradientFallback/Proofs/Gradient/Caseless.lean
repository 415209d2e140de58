import GradientFallback.Fallback.Diagnostic
import GradientFallback.Proofs.Gradient.Respelling

/-! # Filters of gradients in small letters

A gradient in small letters has the same heading, and its colors are the same colors, so it has the
same filter, or the same kind of problem.
-/
namespace GradientFallback

/-- Blanks around a color and the case of its letters do not matter. -/
theorem Color.parse_lowerCase (s : String) :
    (parse (lowerCase s)).toOption = (parse s).toOption := by
  have hcs : ((trim (lowerCase s).toList).map Char.toLower) = (trim s.toList).map Char.toLower := by
    rw [lowerCase, String.toList_ofList, trim_toLower, map_toLower_toLower]
  simp only [parse, hcs]
  split <;> rfl

namespace LegacyFilter

theorem toOption_ofColors (start finish : String) (axis : Axis) :
    (ofColors start finish axis).toOption = (Color.parse start).toOption.bind fun s =>
      (Color.parse finish).toOption.map fun f => valueOf s f axis := by
  unfold ofColors
  cases Color.parse start with
  | error e => rfl
  | ok s => cases Color.parse finish <;> rfl

variable {α : Type} [AngleNumber α]

/-- Without the texts that a problem quotes, all that can be wrong is a color. -/
theorem mapError_ofGradient (g : Gradient α) (text : String) :
    let direction := Direction.ofHeading g.heading
    let colors :=
      if isTurned direction.side then (g.lastColor, g.firstColor) else (g.firstColor, g.lastColor)
    (ofGradient g text).mapError GradientError.kind =
      ((ofColors colors.1 colors.2 direction.side.axis).toOption.elim (.error .colorError)
        fun value => .ok ⟨value, g.isMultiColor, direction.approximation⟩) := by
  intro direction colors
  rw [ofGradient]
  cases ofColors colors.1 colors.2 direction.side.axis <;> rfl

/-- A filter depends on the heading, on the number of stops and on what colors the first and the last
one are. -/
theorem ofGradient_congr {g g' : Gradient α} (hheading : g'.heading = g.heading)
    (hlength : g'.stops.length = g.stops.length)
    (hfirst : (Color.parse g'.firstColor).toOption = (Color.parse g.firstColor).toOption)
    (hlast : (Color.parse g'.lastColor).toOption = (Color.parse g.lastColor).toOption)
    (text text' : String) :
    (ofGradient g' text').mapError GradientError.kind =
      (ofGradient g text).mapError GradientError.kind := by
  have hmulti : g'.isMultiColor = g.isMultiColor := by
    rw [Gradient.isMultiColor, hlength, Gradient.isMultiColor]
  simp only [mapError_ofGradient, toOption_ofColors, hheading, hmulti]
  split <;> simp only [hfirst, hlast]

/-- The colors at the ends are those of the text in small letters. -/
theorem ofGradient_toLower {g g' : Gradient α}
    (h : g'.mapText Char.toLower = g.mapText Char.toLower) (text text' : String) :
    (ofGradient g' text').mapError GradientError.kind =
      (ofGradient g text).mapError GradientError.kind := by
  have hfirst (g : Gradient α) :
      (g.mapText Char.toLower).firstColor = lowerCase g.firstColor := by
    rw [Gradient.firstColor, Gradient.mapText, List.head?_map, Gradient.firstColor]
    cases g.stops.head? <;> rfl
  have hlast (g : Gradient α) : (g.mapText Char.toLower).lastColor = lowerCase g.lastColor := by
    rw [Gradient.lastColor, Gradient.mapText, List.getLast?_map, Gradient.lastColor]
    cases g.stops.getLast? <;> rfl
  have hparse {s t : String} (hst : lowerCase s = lowerCase t) :
      (Color.parse s).toOption = (Color.parse t).toOption := by
    rw [← Color.parse_lowerCase, hst, Color.parse_lowerCase]
  obtain ⟨hheading, hstops⟩ := Gradient.mk.inj h
  have hlength : g'.stops.length = g.stops.length := by simpa using congrArg List.length hstops
  refine ofGradient_congr hheading hlength (hparse ?_) (hparse ?_) text text'
  · rw [← hfirst, h, hfirst]
  · rw [← hlast, h, hlast]

end LegacyFilter

/-- The gradient of a text in small letters is that of the text, in small letters. -/
theorem Gradient.parse?_lowerCase (text : String) :
    (parse? (lowerCase text)).map (mapText Char.toLower) =
      (parse? text).map (mapText Char.toLower) := by
  have hrespells : Token.Respells Char.toLower Token.folded :=
    ⟨fun t => by rw [Token.folded]; cases t.kind <;> simp [TokenKind.folded], fun _ => rfl⟩
  have htokens := Token.lex_toLower .origin (unifyLineEnds text.toList)
  simp only [parse?, lowerCase, String.toList_ofList, unifyLineEnds_toLower,
    ← ofTokens?_respell hrespells, htokens]

namespace LegacyFilter

/-- The case of the letters does not matter: the text in small letters has the same filter, or the
same kind of problem. -/
theorem ofText_lowerCase (text : String) :
    (ofText (lowerCase text)).mapError GradientError.kind =
      (ofText text).mapError GradientError.kind := by
  have hparse := Gradient.parse?_lowerCase text
  rw [ofText, ofText]
  rcases h : Gradient.parse? text with _ | g <;>
    rcases h' : Gradient.parse? (lowerCase text) with _ | g'
  · rfl
  · rw [h, h'] at hparse
    exact absurd hparse nofun
  · rw [h, h'] at hparse
    exact absurd hparse nofun
  · rw [h, h'] at hparse
    exact ofGradient_toLower (Option.some.inj hparse) text (lowerCase text)

end LegacyFilter
end GradientFallback
