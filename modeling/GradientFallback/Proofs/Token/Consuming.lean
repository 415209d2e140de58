import GradientFallback.Proofs.Token.Spelling
import GradientFallback.Token.Reader

/-! # Tokens on demand

A reader that is asked for one token after the other comes to the end of its text.  The starts of
the tokens cut the text into pieces, none of them empty, and each token stands where the pieces
before it end.
-/
namespace GradientFallback

theorem cut_append (front piece back : List Char) :
    cut (front ++ (piece ++ back)) front.length (front ++ piece).length = piece := by
  rw [cut, ← List.append_assoc, List.take_left, List.drop_left]

namespace Token

/-- The tokens one after the other from `start` on, with the one for the end behind them. -/
def settleAll (start : Location) (ts : List Token) : List Token :=
  settle start ts ++ [atEnd (start.advance (source ts))]

theorem settleAll_cons (start : Location) (t : Token) (ts : List Token) :
    settleAll start (t :: ts) =
      { t with location := start } :: settleAll (start.advance t.text) ts := by
  rw [settleAll, source_cons, Location.advance_append]
  rfl

theorem settleAll_head (start : Location) (ts : List Token) :
    ∃ t us, settleAll start ts = t :: us ∧ t.location = start := by
  cases ts with
  | nil => exact ⟨_, _, rfl, rfl⟩
  | cons t ts => exact ⟨_, _, settleAll_cons start t ts, rfl⟩

/-- Each of the tokens stands where the texts before it end. -/
theorem location_settleAll (start : Location) {ts : List Token} {i : Nat} {t : Token}
    (h : (settleAll start ts)[i]? = some t) :
    t.location = start.advance (source (ts.take i)) := by
  induction i generalizing start ts with
  | zero =>
    obtain ⟨u, us, hcons, hu⟩ := settleAll_head start ts
    rw [hcons] at h
    cases h
    exact hu
  | succ i ih =>
    cases ts with
    | nil => exact absurd h nofun
    | cons u ts =>
      rw [settleAll_cons] at h
      rw [List.take_succ_cons, source_cons, Location.advance_append]
      exact ih (start.advance u.text) h

theorem all_eq_settleAll (start : Location) (cs : List Char) :
    all start cs = settleAll start (lex start cs) := by
  have hread := lex_source_append start (spelled_lex start cs)
  rw [source_lex, List.append_nil, lex_nil, List.append_nil] at hread
  rw [all, settleAll, source_lex, ← hread]

theorem all_of_token (start : Location) {cs : List Char} {k : TokenKind} {n : Nat}
    (h : Scan.token cs = some (k, n)) :
    all start cs = ⟨k, start, cs.take n⟩ :: all (start.advance (cs.take n)) (cs.drop n) := by
  have hend : start.advance cs = (start.advance (cs.take n)).advance (cs.drop n) := by
    rw [← Location.advance_append, List.take_append_drop]
  rw [all, lex_of_token start h, hend]
  rfl

theorem text_ne_nil_of_spelled {ts : List Token} {after : List Char} (h : Spelled ts after) :
    ∀ t ∈ ts, t.text ≠ [] := by
  induction ts with
  | nil => exact nofun
  | cons t ts ih =>
    obtain ⟨hread, hothers⟩ := spelled_cons.1 h
    refine List.forall_mem_cons.2 ⟨?_, ih hothers⟩
    exact List.length_pos_iff.1 (Scan.token_width hread).1

end Token

namespace TokenReader

/-- Consuming gives the tokens one after the other, up to the first one for the end of the text. -/
inductive Drained : TokenReader → List Token → Prop
  | ending {r r' : TokenReader} {t : Token} (consumed : r.consume = (t, r'))
      (ends : t.kind = .endOfText) : Drained r [t]
  | next {r r' : TokenReader} {t : Token} {ts : List Token} (consumed : r.consume = (t, r'))
      (goesOn : t.kind ≠ .endOfText) (others : Drained r' ts) : Drained r (t :: ts)

/-- The number of characters of the text in front of a token. -/
def startOf (r : TokenReader) (t : Token) : Nat := t.location.offset - r.start.offset

/-- The pieces of the text from the start of each token to the start of the one behind it. -/
def pieces (r : TokenReader) (ts : List Token) : List (List Char) :=
  List.zipWith (fun t u => r.slice (r.startOf t) (r.startOf u)) ts ts.tail

/-- Consuming has passed `passed`, is in front of `rest`, and no token has been looked at. -/
structure Between (start : Location) (passed rest : List Char) (r : TokenReader) : Prop where
  start_eq : r.start = start
  text_eq : r.text = passed ++ rest
  unread_eq : r.unread = rest
  here_eq : r.here = Location.origin.advance passed
  ahead_eq : r.ahead = []

namespace Between

variable {start : Location} {passed rest : List Char} {r : TokenReader}

theorem ofSource (start : Location) (text : String) :
    Between start [] (unifyLineEnds text.toList)
      (TokenReader.ofSource start (Source.ofString text)) :=
  ⟨rfl, rfl, rfl, rfl, rfl⟩

theorem place (h : Between start passed rest r) : r.place = start.advance passed := by
  rw [TokenReader.place, h.start_eq, h.here_eq, Location.within_advance_origin]

/-- Without tokens kept, what is consumed is read from the text. -/
theorem consume (h : Between start passed rest r) : r.consume = r.fetch := by
  rcases r with ⟨first, text, unread, here, ahead⟩
  obtain rfl : ahead = [] := h.ahead_eq
  rw [TokenReader.consume, look, require]
  simp only [List.length_nil, Nat.sub_zero, fill]
  unfold fetch
  split <;> rfl

theorem consume_end (h : Between start passed [] r) :
    r.consume = (Token.atEnd (start.advance passed), r) := by
  rw [h.consume, fetch, h.unread_eq, Scan.token, h.place]

/-- A token is consumed with the characters it is written with, at the place where it starts. -/
theorem consume_token (h : Between start passed rest r) {k : TokenKind} {n : Nat}
    (hread : Scan.token rest = some (k, n)) :
    ∃ r', r.consume = (⟨k, start.advance passed, rest.take n⟩, r') ∧
      Between start (passed ++ rest.take n) (rest.drop n) r' := by
  have hfetch : r.fetch = (⟨k, start.advance passed, rest.take n⟩,
      { r with unread := rest.drop n, here := r.here.advance (rest.take n) }) := by
    rw [fetch, h.unread_eq, hread, h.place]
  refine ⟨_, h.consume.trans hfetch, h.start_eq, ?_, rfl, ?_, h.ahead_eq⟩
  · rw [List.append_assoc, List.take_append_drop]
    exact h.text_eq
  · rw [Location.advance_append, ← h.here_eq]

/-- A reader is drained of all tokens of its text. -/
theorem drained (h : Between start passed rest r) :
    Drained r (Token.all (start.advance passed) rest) := by
  induction rest using Token.lex_induct generalizing passed r with
  | nil => exact .ending h.consume_end rfl
  | token rest k n hread _ ih =>
    obtain ⟨r', hconsume, hbehind⟩ := h.consume_token hread
    have hothers := ih hbehind
    rw [Location.advance_append] at hothers
    rw [Token.all_of_token _ hread]
    exact .next hconsume (Scan.reading_of_token hread).ne_endOfText hothers

end Between

theorem startOf_advance {r : TokenReader} {t : Token} {passed : List Char}
    (h : t.location = r.start.advance passed) : r.startOf t = passed.length := by
  rw [startOf, h, Location.advance_offset, Nat.add_sub_cancel_left]

/-- The pieces between the starts of tokens that stand one after the other are their texts. -/
theorem pieces_settleAll {r : TokenReader} {passed : List Char} {ts : List Token}
    (h : r.text = passed ++ Token.source ts) :
    r.pieces (Token.settleAll (r.start.advance passed) ts) = ts.map Token.text := by
  induction ts generalizing passed with
  | nil => rfl
  | cons t ts ih =>
    have hbehind : r.text = (passed ++ t.text) ++ Token.source ts := by
      rw [h, Token.source_cons, List.append_assoc]
    have hothers := ih hbehind
    have hpiece : r.slice passed.length (passed ++ t.text).length = t.text := by
      rw [slice, h, Token.source_cons, cut_append]
    rw [Location.advance_append] at hothers
    rw [Token.settleAll_cons, List.map_cons, ← hothers]
    obtain ⟨u, us, hcons, hu⟩ := Token.settleAll_head ((r.start.advance passed).advance t.text) ts
    rw [← Location.advance_append] at hu
    rw [hcons, pieces, List.tail_cons, List.zipWith_cons_cons, startOf_advance rfl,
      startOf_advance hu, hpiece]
    rfl

/-- Consuming comes to the end of every text.  Between the starts of consecutive tokens lie pieces
that are not empty and make up the text with its line ends unified; each token stands where the
pieces before it end, with lines, columns and characters counted on from the start. -/
theorem exists_drained (start : Location) (text : String) :
    let r := TokenReader.ofSource start (Source.ofString text)
    ∃ ts, r.Drained ts ∧ ts = Token.all start (unifyLineEnds text.toList) ∧
      (r.pieces ts).flatten = unifyLineEnds text.toList ∧ (∀ piece ∈ r.pieces ts, piece ≠ []) ∧
      ts.map Token.location =
        (List.range ts.length).map fun i => start.advance ((r.pieces ts).take i).flatten := by
  intro r
  have hall := Token.all_eq_settleAll start (unifyLineEnds text.toList)
  have hsource := Token.source_lex start (unifyLineEnds text.toList)
  have hspelled := Token.spelled_lex start (unifyLineEnds text.toList)
  generalize Token.lex start (unifyLineEnds text.toList) = ts at hall hsource hspelled
  have htext : r.text = [] ++ Token.source ts := hsource.symm
  have hpieces : r.pieces (Token.settleAll start ts) = ts.map Token.text := pieces_settleAll htext
  refine ⟨Token.settleAll start ts, ?_, hall.symm, ?_, ?_, ?_⟩
  · rw [← hall]
    exact (Between.ofSource start text).drained
  · rw [hpieces, ← List.flatMap_def]
    exact hsource
  · rw [hpieces, List.forall_mem_map]
    exact Token.text_ne_nil_of_spelled hspelled
  · rw [hpieces]
    apply List.ext_getElem
    · rw [List.length_map, List.length_map, List.length_range]
    · intro i hi _
      rw [List.length_map] at hi
      rw [List.getElem_map, List.getElem_map, List.getElem_range, ← List.map_take,
        ← List.flatMap_def]
      exact Token.location_settleAll start (List.getElem?_eq_getElem hi)

end TokenReader
end GradientFallback
