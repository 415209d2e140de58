import GradientFallback.Proofs.Stylesheet.Faults
import GradientFallback.Proofs.Token.Respelling
import Mathlib.Data.Nat.Digits.Defs

/-! # What a snippet shows

A snippet shows the lines around a place as they are, each with its number.  The mark behind the line
of the place stands one column in front of the place, but for the first column, which has none in
front.
-/
namespace GradientFallback
namespace CommandLine

/-- The lines from the number `first` to the number `last`, each with its number in front. -/
def numberedLines (text : String) (first last : Nat) : String :=
  String.join ((((linesOf text).zipIdx 1).filter fun line => first ≤ line.2 && line.2 ≤ last).map
    fun line => numberedLine line.2 line.1)

section Shown

variable {marked column first : Nat}

theorem shownLines_append (lines others : List String) :
    shownLines marked column first (lines ++ others) =
      shownLines marked column first lines ++
        shownLines marked column (first + lines.length) others := by
  induction lines generalizing first with
  | nil => simp [shownLines]
  | cons line lines ih =>
    rw [List.cons_append, shownLines, shownLines, ih, List.length_cons, Nat.add_right_comm first 1,
      Nat.add_assoc first, String.append_assoc, String.append_assoc, String.append_assoc]

/-- Without the marked line there are only numbered lines. -/
theorem shownLines_unmarked {lines : List String}
    (h : marked < first ∨ first + lines.length ≤ marked) :
    shownLines marked column first lines =
      String.join ((lines.zipIdx (first + 1)).map fun line => numberedLine line.2 line.1) := by
  induction lines generalizing first with
  | nil => rfl
  | cons line lines ih =>
    have hfirst : first ≠ marked := by
      rintro rfl
      simp only [List.length_cons] at h
      omega
    have hothers : marked < first + 1 ∨ first + 1 + lines.length ≤ marked := by
      simp only [List.length_cons] at h
      omega
    rw [shownLines, if_neg hfirst, ih hothers, List.zipIdx_cons, List.map_cons, String.join_cons,
      String.append_empty]

end Shown

/-- The numbers count the lines in front. -/
theorem numberedLines_of_parts {text : String} {front lines back : List String} {first last : Nat}
    (h : linesOf text = front ++ (lines ++ back)) (hfront : front = [] ∨ front.length < first)
    (hfirst : first ≤ front.length + 1) (hlast : front.length + lines.length ≤ last)
    (hback : back = [] ∨ last ≤ front.length + lines.length) :
    numberedLines text first last =
      String.join ((lines.zipIdx (front.length + 1)).map fun line => numberedLine line.2 line.1) := by
  have hbefore : (front.zipIdx 1).filter (fun line => first ≤ line.2 && line.2 ≤ last) = [] := by
    rw [List.filter_eq_nil_iff]
    intro line hline
    have hlt := List.snd_lt_of_mem_zipIdx hline
    rcases hfront with rfl | hfront
    · cases hline
    · simp only [Bool.and_eq_true, decide_eq_true_eq, not_and]
      omega
  have hwithin : (lines.zipIdx (1 + front.length)).filter
      (fun line => first ≤ line.2 && line.2 ≤ last) = lines.zipIdx (1 + front.length) := by
    rw [List.filter_eq_self]
    intro line hline
    have hlt := List.snd_lt_of_mem_zipIdx hline
    have hle := List.le_snd_of_mem_zipIdx hline
    simp only [Bool.and_eq_true, decide_eq_true_eq]
    omega
  have hbehind : (back.zipIdx (1 + front.length + lines.length)).filter
      (fun line => first ≤ line.2 && line.2 ≤ last) = [] := by
    rw [List.filter_eq_nil_iff]
    intro line hline
    have hle := List.le_snd_of_mem_zipIdx hline
    rcases hback with rfl | hback
    · cases hline
    · simp only [Bool.and_eq_true, decide_eq_true_eq, not_and]
      omega
  rw [numberedLines, h, List.zipIdx_append, List.zipIdx_append, List.filter_append,
    List.filter_append, hbefore, hwithin, hbehind, List.nil_append, List.append_nil, Nat.add_comm 1]

/-- A list around one of its elements, with no more than `n` elements named on each side. -/
theorem exists_around {α : Type} {xs : List α} {x : α} {i : Nat} (h : xs[i]? = some x) (n : Nat) :
    ∃ front above below back, xs = front ++ (above ++ x :: (below ++ back)) ∧
      front.length = i - n ∧ front.length + above.length = i ∧ below.length ≤ n ∧
      (back = [] ∨ below.length = n) ∧
      (xs.drop (i - n)).take (i + n + 1 - (i - n)) = above ++ x :: below := by
  obtain ⟨hi, hx⟩ := List.getElem?_eq_some_iff.1 h
  let above := (xs.drop (i - n)).take (i - (i - n))
  let behind := xs.drop (i + 1)
  have hfront : (xs.take (i - n)).length = i - n := by
    rw [List.length_take]
    omega
  have habove : above.length = i - (i - n) := by
    simp only [above, List.length_take, List.length_drop]
    omega
  have hdrop : xs.drop (i - n) = above ++ x :: behind := by
    have hrest : (xs.drop (i - n)).drop (i - (i - n)) = x :: behind := by
      rw [List.drop_drop, Nat.add_sub_cancel' (Nat.sub_le i n), List.drop_eq_getElem_cons hi, hx]
    rw [← hrest, List.take_append_drop]
  refine ⟨xs.take (i - n), above, behind.take n, behind.drop n, ?_, hfront, by omega,
    List.length_take_le n behind, ?_, ?_⟩
  · rw [List.take_append_drop, ← hdrop, List.take_append_drop]
  · by_cases hn : behind.length ≤ n
    · exact .inl (List.drop_eq_nil_of_le hn)
    · exact .inr (by rw [List.length_take]; omega)
  · have hwidth : i + n + 1 - (i - n) = above.length + (n + 1) := by omega
    rw [hdrop, hwidth, List.take_length_add_append, List.take_succ_cons]

/-- A snippet is the five lines above, the line itself, the mark, and the five lines below. -/
theorem snippet_eq {text line : String} {l : Location} (hline : 1 ≤ l.line)
    (hcolumn : l.column ≤ farColumn + 2) (hmarked : (linesOf text)[l.line - 1]? = some line) :
    snippet text l =
      "\n" ++ numberedLines text (l.line - reach) (l.line - 1) ++ numberedLine l.line line ++
        markLine (l.column - 2) ++ numberedLines text (l.line + 1) (l.line + reach) ++ "\n" := by
  obtain ⟨front, above, below, back, hlines, hfront, habove, hbelow, hback, hshown⟩ :=
    exists_around hmarked reach
  obtain ⟨m, hm⟩ := Nat.exists_eq_add_of_le' hline
  rw [hm, Nat.add_sub_cancel] at hfront habove hshown
  have hlater : linesOf text = front ++ above ++ [line] ++ (below ++ back) := by simp [hlines]
  have hcount : (front ++ above ++ [line]).length = m + 1 := by
    simp only [List.length_append, List.length_singleton]
    omega
  have hbefore : numberedLines text (m + 1 - reach) m = _ :=
    numberedLines_of_parts hlines (by simp only [← List.length_eq_zero_iff]; omega) (by omega)
      (by omega) (.inr (by omega))
  have hbehind : numberedLines text (m + 1 + 1) (m + 1 + reach) = _ :=
    numberedLines_of_parts hlater (.inr (by omega)) (by omega) (by omega)
      (hback.imp_right fun h => by omega)
  rw [hcount] at hbehind
  have hcolumn : ¬l.column - 2 > farColumn := by omega
  have hmark : (m - reach) + above.length = m := by omega
  simp only [snippet, hm, Nat.add_sub_cancel, if_neg hcolumn, hshown]
  rw [shownLines_append, shownLines_unmarked (.inr (by omega)), hmark, shownLines, if_pos rfl,
    shownLines_unmarked (.inl (Nat.lt_succ_self m)), hbefore, hbehind, hfront]
  simp only [String.append_assoc]

/-! ## Columns -/

/-- In front of a line stand six characters, as long as its number has no more than five digits. -/
theorem exists_margin {number : Nat} (h : number ≤ 99999) (line : String) :
    ∃ margin : String, margin.length = 6 ∧ numberedLine number line = margin ++ line ++ "\n" := by
  have hdigits : (toString number).length ≤ 5 := Nat.repr_length number 5 (by decide) (by omega)
  refine ⟨_, ?_, rfl⟩
  simp only [String.length_append, String.length_ofList, List.length_replicate]
  have hbar : "|".length = 1 := rfl
  omega

theorem markLine_eq (column : Nat) :
    markLine column = "   " ++ String.ofList (List.replicate (3 + column) '-') ++ "^\n" := by
  rw [← List.replicate_append_replicate, String.ofList_append, ← String.append_assoc]
  rfl

theorem idxOf_markLine (column : Nat) : (markLine column).toList.idxOf '^' = 6 + column := by
  have hfront : '^' ∉ "   ---".toList ++ List.replicate column '-' := by
    simp [List.mem_replicate]
  have hmark : (markLine column).toList =
      "   ---".toList ++ List.replicate column '-' ++ ['^', '\n'] := by
    simp [markLine]
  rw [hmark, List.idxOf_append, if_neg hfront, List.length_append, List.length_replicate]
  exact Nat.zero_add _

/-- A token that is no whitespace stands in its line with its first character. -/
theorem head?_source_of_all {start : Location} {cs : List Char} {front back : List Token} {t : Token}
    (hall : Token.all start cs = front ++ t :: back) (ht : t.isWhitespace = false) :
    (Token.source (t :: back)).head? = t.text.head? ∧ ∀ c ∈ t.text.head?, c ≠ '\n' := by
  rw [Token.all] at hall
  rcases List.eq_nil_or_concat' back with rfl | ⟨us, u, rfl⟩
  · obtain ⟨-, hend⟩ := List.append_inj' hall rfl
    obtain rfl := List.singleton_inj.1 hend
    exact ⟨rfl, fun c hc => absurd hc (Option.not_mem_none c)⟩
  · rw [← List.cons_append, ← List.append_assoc] at hall
    obtain ⟨hlex, -⟩ := List.append_inj' hall rfl
    have hspelled := Token.spelled_lex start cs
    rw [hlex, Token.spelled_append] at hspelled
    have hblank := Token.head_of_not_whitespace hspelled.2 ht
    obtain ⟨c, text, htext⟩ := List.exists_cons_of_ne_nil (Token.text_ne_nil hspelled.2.1)
    refine ⟨by simp [htext], fun d hd => ?_⟩
    have hnot : isBlank d = false := hblank d (by simpa [htext] using hd)
    rintro rfl
    exact absurd hnot (by decide)

/-- Strict reading stops at a character of a line, or at the end of the last one. -/
theorem exists_line_of_error {text : String} {e : ParseError}
    (h : Stylesheet.parse .strict text = .error e) :
    ∃ front t back line, Token.all .origin (unifyLineEnds text.toList) = front ++ t :: back ∧
      t.location = e.location ∧ 1 ≤ e.location.line ∧ 1 ≤ e.location.column ∧
      (linesOf text)[e.location.line - 1]? = some line ∧
      line.toList[e.location.column - 1]? = t.text.head? ∧ e.location.column ≤ line.length + 1 := by
  obtain ⟨front, t, back, hall, hplace, hfaulty, hlocation⟩ := Stylesheet.exists_blamed h
  have hsource := congrArg Token.source hall
  rw [Token.source_all, Token.source_append] at hsource
  obtain ⟨hhead, hfeed⟩ := head?_source_of_all hall hfaulty.not_isWhitespace
  rw [← hhead] at hfeed
  obtain ⟨line, hline, hcolumn, hlength⟩ := exists_line_at hsource hfeed
  have hcounted := Location.counted_origin.advance (Token.source front)
  rw [← hlocation] at hline hcolumn hlength hcounted
  refine ⟨front, t, back, String.ofList line, hall, hplace, hcounted.line, hcounted.column, ?_, ?_, ?_⟩
  · rw [linesOf, List.getElem?_map, hline]
    rfl
  · rw [String.toList_ofList, hcolumn, hhead]
  · rwa [String.length_ofList]

/-- The snippet for a strict error shows the line of the error with up to five lines on both sides,
all with their numbers and six characters in front.  The mark behind the line stands below the column
in front of the error, and below the error itself only in the first column. -/
theorem snippet_of_error {text : String} {e : ParseError}
    (hfails : Stylesheet.parse .strict text = .error e) (hline : e.location.line ≤ 99999)
    (hcolumn : e.location.column ≤ 1002) :
    ∃ front t back line margin mark,
      Token.all .origin (unifyLineEnds text.toList) = front ++ t :: back ∧
      t.location = e.location ∧
      (linesOf text)[e.location.line - 1]? = some line ∧
      line.toList[e.location.column - 1]? = t.text.head? ∧
      e.location.column ≤ line.length + 1 ∧
      margin.length = 6 ∧ numberedLine e.location.line line = margin ++ line ++ "\n" ∧
      mark = "   " ++ String.ofList (List.replicate (2 + max 1 (e.location.column - 1)) '-') ++ "^\n" ∧
      snippet text e.location =
        "\n" ++ numberedLines text (e.location.line - 5) (e.location.line - 1) ++
          numberedLine e.location.line line ++ mark ++
          numberedLines text (e.location.line + 1) (e.location.line + 5) ++ "\n" ∧
      (mark.toList.idxOf '^' = margin.length + (e.location.column - 1) ↔ e.location.column = 1) := by
  obtain ⟨front, t, back, line, hall, hplace, hfirst, hleft, hnumber, hcharacter, hlength⟩ :=
    exists_line_of_error hfails
  obtain ⟨margin, hmargin, hshown⟩ := exists_margin hline line
  have hsnippet := snippet_eq hfirst hcolumn hnumber
  refine ⟨front, t, back, line, margin, markLine (e.location.column - 2), hall, hplace, hnumber,
    hcharacter, hlength, hmargin, hshown, ?_, hsnippet, ?_⟩
  · have hdashes : 2 + max 1 (e.location.column - 1) = 3 + (e.location.column - 2) := by omega
    rw [markLine_eq, hdashes]
  · rw [idxOf_markLine, hmargin]
    omega

/-- A declaration without a colon is marked one column in front of the brace that ends it. -/
theorem snippet_of_error_brace :
    ∃ e, Stylesheet.parse .strict "a\x7bb\x7d" = .error e ∧ e.location = ⟨1, 4, 3⟩ ∧
      snippet "a\x7bb\x7d" e.location = "\n1    |a\x7bb\x7d\n   -----^\n\n" ∧
      ∃ front t back line margin mark,
        Token.all .origin (unifyLineEnds "a\x7bb\x7d".toList) = front ++ t :: back ∧
        t.location = e.location ∧
        (linesOf "a\x7bb\x7d")[e.location.line - 1]? = some line ∧
        line.toList[e.location.column - 1]? = t.text.head? ∧
        e.location.column ≤ line.length + 1 ∧
        margin.length = 6 ∧ numberedLine e.location.line line = margin ++ line ++ "\n" ∧
        mark =
          "   " ++ String.ofList (List.replicate (2 + max 1 (e.location.column - 1)) '-') ++ "^\n" ∧
        snippet "a\x7bb\x7d" e.location =
          "\n" ++ numberedLines "a\x7bb\x7d" (e.location.line - 5) (e.location.line - 1) ++
            numberedLine e.location.line line ++ mark ++
            numberedLines "a\x7bb\x7d" (e.location.line + 1) (e.location.line + 5) ++ "\n" ∧
        (mark.toList.idxOf '^' = margin.length + (e.location.column - 1) ↔ e.location.column = 1) := by
  have hfails : Stylesheet.parse .strict "a\x7bb\x7d" =
      .error ⟨.missingColon .rightBrace, ⟨1, 4, 3⟩⟩ := rfl
  exact ⟨_, hfails, rfl, by decide +kernel, snippet_of_error hfails (by decide) (by decide)⟩

end CommandLine
end GradientFallback
