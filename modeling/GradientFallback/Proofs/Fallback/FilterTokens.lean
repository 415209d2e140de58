import GradientFallback.Proofs.Gradient.FilterText
import GradientFallback.Proofs.Stylesheet.Importance

/-! # The tokens of a legacy filter

The text of a legacy filter is read as the same tokens wherever it stands, but for its colors and
its direction.
-/
namespace GradientFallback

namespace LegacyFilter

/-- The tokens of the filter between two colors, which are given without their number signs. -/
def tokens (start finish : List Char) (direction : Char) : List Token :=
  let word (text : String) : Token := ⟨.ident text, .origin, text.toList⟩
  let sign (kind : TokenKind) (c : Char) : Token := ⟨kind, .origin, [c]⟩
  let color (digits : List Char) : Token :=
    ⟨.quotedString (String.ofList ('#' :: digits)), .origin, '\'' :: '#' :: digits ++ ['\'']⟩
  [word "progid", sign .colon ':', word "DXImageTransform", sign (.delim '.') '.', word "Microsoft",
    sign (.delim '.') '.', ⟨.function "gradient", .origin, "gradient(".toList⟩,
    sign .whitespace ' ', word "startColorstr", sign (.delim '=') '=', color start,
    sign .comma ',', sign .whitespace ' ', word "endColorstr", sign (.delim '=') '=', color finish,
    sign .comma ',', word "GradientType", sign (.delim '=') '=',
    sign (.number (Scan.numeralValue [direction])) direction, sign .whitespace ' ',
    sign .rightParen ')']

/-- A word of the template in front of a sign. -/
theorem token_word {text : String} {d : Char} (z : List Char)
    (hletter : text.toList.head?.any isLetter = true)
    (hchars : text.toList.all Scan.isNameChar = true)
    (hd : Scan.isNameChar d = false ∧ d ≠ '\\' ∧ d ≠ '(') :
    Scan.token (text.toList ++ d :: z) = some (.ident text, text.toList.length) := by
  rcases htext : text.toList with _ | ⟨c, u⟩
  · rw [htext] at hletter
    exact absurd hletter nofun
  · rw [htext, List.all_eq_true] at hchars
    rw [htext] at hletter
    have hends : Scan.EndsName (d :: z) := Scan.endsName_of_head fun e he => by cases he; exact hd
    have hvalue : String.ofList (c :: u) = text := by rw [← htext, String.ofList_toList]
    rw [Scan.token_ident (by simpa using hletter) (fun e he => hchars e (List.mem_cons_of_mem c he))
      hends, hvalue]

theorem token_function (z : List Char) :
    Scan.token ("gradient(".toList ++ z) = some (.function "gradient", "gradient(".toList.length) := by
  have hname : Scan.name ("gradient".toList ++ '(' :: z) = ("gradient", 8) :=
    Scan.name_of_chars (List.all_eq_true.1 (by decide)) (Scan.segment_of_head fun e he => by cases he; decide)
  have htext : "gradient(".toList ++ z = 'g' :: ("radient".toList ++ '(' :: z) := rfl
  have hlike : Scan.identLike ("gradient".toList ++ '(' :: z) = (.function "gradient", 9) := by
    simp only [Scan.identLike, hname]
    exact if_neg fun h => absurd h.1 (by decide)
  rw [htext, Scan.token_of_isLetter (by decide)]
  exact congrArg some hlike

theorem token_color {digits : List Char} (h : ∀ c ∈ digits, isSmallHexDigit c = true)
    (z : List Char) :
    Scan.token ('\'' :: '#' :: digits ++ ['\''] ++ z) =
      some (.quotedString (String.ofList ('#' :: digits)),
        ('\'' :: '#' :: digits ++ ['\'']).length) := by
  have hchars : ∀ c ∈ '#' :: digits, c ≠ '\\' ∧ c ≠ '\'' ∧ c ≠ '\n' := by
    refine List.forall_mem_cons.2 ⟨by decide, fun c hc => ?_⟩
    exact ⟨Scan.ne_of_class (h c hc) (by decide), Scan.ne_of_class (h c hc) (by decide),
      Scan.ne_of_class (h c hc) (by decide)⟩
  have htext : '\'' :: '#' :: digits ++ ['\''] ++ z = '\'' :: ('#' :: digits ++ '\'' :: z) := by simp
  have hread : Scan.token ('\'' :: ('#' :: digits ++ '\'' :: z)) =
      some (Scan.string '\'' ('#' :: digits ++ '\'' :: z)) := rfl
  rw [htext, hread, Scan.string_of_chars (by decide) hchars]
  simp

theorem firm_tokens {start finish : List Char} {direction : Char}
    (hstart : ∀ c ∈ start, isSmallHexDigit c = true)
    (hfinish : ∀ c ∈ finish, isSmallHexDigit c = true)
    (hdirection : direction = '0' ∨ direction = '1') :
    Token.Firm (tokens start finish direction) := by
  have hblank (c : Char) (z : List Char) (hc : isBlank c = false) :
      Scan.token ([' '] ++ c :: z) = some (.whitespace, 1) :=
    (Scan.token_whitespace_iff (List.cons_ne_nil _ _)).2
      ⟨List.forall_mem_singleton.2 rfl, fun d hd => by cases hd; exact hc⟩
  have hnumber (z : List Char) : Scan.token (direction :: ' ' :: z) =
      some (.number (Scan.numeralValue [direction]), 1) := by
    rcases hdirection with rfl | rfl <;> rfl
  intro after
  refine ⟨?_, rfl, ?_, rfl, ?_, rfl, ?_, ?_, ?_, rfl, ?_, rfl, ?_, ?_, rfl, ?_, rfl, ?_, rfl, ?_,
    ?_, rfl, trivial⟩
  · exact token_word _ (by decide) (by decide) (by decide)
  · exact token_word _ (by decide) (by decide) (by decide)
  · exact token_word _ (by decide) (by decide) (by decide)
  · exact token_function _
  · exact hblank 's' _ (by decide)
  · exact token_word _ (by decide) (by decide) (by decide)
  · exact token_color hstart _
  · exact hblank 'e' _ (by decide)
  · exact token_word _ (by decide) (by decide) (by decide)
  · exact token_color hfinish _
  · exact token_word _ (by decide) (by decide) (by decide)
  · exact hnumber _
  · exact hblank ')' _ (by decide)

theorem source_tokens (start finish : List Char) (direction : Char) :
    Token.source (tokens start finish direction) =
      ("progid:DXImageTransform.Microsoft.gradient( startColorstr='" ++
        String.ofList ('#' :: start) ++ "', endColorstr='" ++ String.ofList ('#' :: finish) ++
        "',GradientType=" ++ String.singleton direction ++ " )").toList := by
  have hfront : "progid:DXImageTransform.Microsoft.gradient( startColorstr='".toList =
      "progid".toList ++ ':' :: ("DXImageTransform".toList ++ '.' :: ("Microsoft".toList ++
        '.' :: ("gradient(".toList ++ ' ' :: ("startColorstr".toList ++ ['=', '\''])))) := rfl
  have hmiddle : "', endColorstr='".toList =
      '\'' :: ',' :: ' ' :: ("endColorstr".toList ++ ['=', '\'']) := rfl
  have hback : "',GradientType=".toList = '\'' :: ',' :: ("GradientType".toList ++ ['=']) := rfl
  have hlast : " )".toList = [' ', ')'] := rfl
  simp only [String.toList_append, String.toList_ofList, String.toList_singleton, hfront, hmiddle,
    hback, hlast, tokens, Token.source_cons, Token.source_nil, List.append_assoc, List.cons_append,
    List.nil_append]

/-- The text of a filter is read as the tokens of the template wherever it stands. -/
theorem exists_tokens {filter : String} (h : IsFilterText filter) :
    ∃ start finish direction, Token.Firm (tokens start finish direction) ∧
      Token.source (tokens start finish direction) = filter.toList := by
  obtain ⟨_, _, direction, ⟨start, rfl, -, hstart⟩, ⟨finish, rfl, -, hfinish⟩, hdirection, rfl⟩ := h
  rcases hdirection with rfl | rfl
  · exact ⟨start, finish, '0', firm_tokens hstart hfinish (.inl rfl), source_tokens start finish '0'⟩
  · exact ⟨start, finish, '1', firm_tokens hstart hfinish (.inr rfl), source_tokens start finish '1'⟩

end LegacyFilter
end GradientFallback
