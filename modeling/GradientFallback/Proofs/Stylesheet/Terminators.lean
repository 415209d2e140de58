import GradientFallback.Proofs.Stylesheet.Recognition
import GradientFallback.Proofs.Token.Searching
import Mathlib.Data.List.Basic

/-! # What ends a construct

The cuts that constructs are read by are the ends of searches: a search on a reader of the text ends
behind the run that the cut takes, and leaves off the trivia that do not belong to the construct.  A
search that is ended by less ends at the same token if this token is one of the fewer.  So where a
brace comes first, a search for the brace alone ends there too.
-/
namespace GradientFallback

namespace Token

/-- The tokens of a list by their number; behind the last one there is the one for the end, again and
again. -/
def sequence (ts : List Token) (finish : Location) (i : Nat) : Token := ts[i]?.getD (atEnd finish)

variable {stop : TokenKind → Bool} {ts run rest : List Token} {finish : Location} {first i : Nat}

theorem sequence_of_drop (h : ts.drop first = run ++ rest) (hi : i < run.length) :
    sequence ts finish (first + i) = run[i] := by
  rw [sequence, ← List.getElem?_drop, h, List.getElem?_append_left hi, List.getElem?_eq_getElem hi,
    Option.getD_some]

/-- Behind a run the first of the rest stands, or the end. -/
theorem sequence_behind (h : ts.drop first = run ++ rest) :
    sequence ts finish (first + run.length) = rest.head?.getD (atEnd finish) := by
  rw [sequence, ← List.getElem?_drop, h, List.getElem?_append_right le_rfl, Nat.sub_self,
    List.head?_eq_getElem?]

theorem depthAt_sequence (h : ts.drop first = run ++ rest) (hi : i ≤ run.length) :
    depthAt (sequence ts finish) first (first + i) = depthBehind 0 (run.take i) := by
  have htokens : (List.range' first i).map (sequence ts finish) = run.take i := by
    apply List.ext_getElem
    · rw [List.length_map, List.length_range', List.length_take, Nat.min_eq_left hi]
    · intro j hj _
      rw [List.length_map, List.length_range'] at hj
      rw [List.getElem_map, List.getElem_range', Nat.one_mul,
        sequence_of_drop h (hj.trans_le hi), List.getElem_take]
  rw [depthAt, Nat.add_sub_cancel_left, htokens]

/-- In a run that nothing stops, no token at depth zero has `stop`. -/
theorem Passes.getElem {depth : Nat} (h : Passes stop depth ts) (hi : i < ts.length)
    (hdepth : depthBehind depth (ts.take i) = 0) : stop ts[i].kind = false := by
  rw [← List.take_append_drop i ts, List.drop_eq_getElem_cons hi, passes_append] at h
  exact h.2.1 hdepth

theorem kind_ne_endOfText_of_spelled {ts : List Token} {after : List Char} (h : Spelled ts after) :
    ∀ t ∈ ts, t.kind ≠ .endOfText := by
  induction ts with
  | nil => exact nofun
  | cons t ts ih =>
    obtain ⟨hread, hothers⟩ := spelled_cons.1 h
    exact List.forall_mem_cons.2 ⟨(Scan.reading_of_token hread).ne_endOfText, ih hothers⟩

end Token

namespace Terminator

variable {token : Nat → Token} {stop : Token → Bool} {first : Nat}

/-- A search that fewer tokens end comes to the same end, if the token there is one of the fewer. -/
theorem Exact.narrow {stop' : Token → Bool} {e : Terminator} (h : e.Exact token stop first)
    (hfewer : ∀ t, stop' t = true → stop t = true) (hends : stop' (token e.index) = true) :
    e.Exact token stop' first := by
  refine ⟨⟨⟨h.isLeast.1.1, h.isLeast.1.2.imp_right fun hstop => ⟨hstop.1, hends⟩⟩, ?_⟩, h.trims⟩
  intro i hi
  exact h.isLeast.2 ⟨hi.1, hi.2.imp_right fun hstop => ⟨hstop.1, hfewer _ hstop.2⟩⟩

theorem Exact.passes {e : Terminator} (h : e.Exact token stop first) {i : Nat} (hfirst : first ≤ i)
    (hi : i < e.index) (hdepth : Token.depthAt token first i = 0) : stop (token i) = false := by
  by_contra hstop
  have hle := h.isLeast.2 ⟨hfirst, .inr ⟨hdepth, Bool.eq_true_of_not_eq_false hstop⟩⟩
  exact absurd hi (Nat.not_lt.2 hle)

/-- The end of what a cut takes from token number `first` on. -/
def ofCut (stop : TokenKind → Bool) (first : Nat) (ts : List Token) : Terminator :=
  let run := (Token.spanUntil stop 0 (ts.drop first)).1
  ⟨first + run.length, first + (Item.significant run).length⟩

/-- Of a run the significant part is what is written. -/
theorem trims_run {ts run rest : List Token} {finish : Location}
    (h : ts.drop first = run ++ rest) :
    Token.Trims (Token.sequence ts finish) first (first + run.length)
      (first + (Item.significant run).length) := by
  obtain ⟨written, gap, hrun, hlast, hgap⟩ := Item.exists_significant run
  rw [hrun, Item.significant_append hlast hgap]
  subst hrun
  refine ⟨Nat.le_add_right _ _, ?_, fun j hle hlt => ?_, ?_⟩
  · rw [List.length_append]
    omega
  · obtain ⟨k, rfl⟩ := Nat.exists_eq_add_of_le hle
    have hk : written.length + k < (written ++ gap).length := by omega
    rw [Nat.add_assoc, Token.sequence_of_drop h hk, List.getElem_append_right (by omega)]
    exact hgap _ (List.getElem_mem _)
  -- What is written is empty, or its last token is no trivia.
  · rcases List.eq_nil_or_concat' written with rfl | ⟨front, t, rfl⟩
    · exact .inl rfl
    · right
      have hk : front.length < (front ++ [t] ++ gap).length := by simp
      have hplace : first + (front ++ [t]).length - 1 = first + front.length := by simp
      rw [hplace, Token.sequence_of_drop h hk]
      simpa using hlast

section Cut

variable {stop : TokenKind → Bool} {ts run rest : List Token} {finish : Location}

/-- What a cut takes is passed. -/
theorem not_endsSearch_run (hkinds : ∀ t ∈ ts, t.kind ≠ .endOfText) (hts : ts.drop first = run ++ rest)
    (hrun : Token.Passes stop 0 run) {i : Nat} (hi : i < run.length) :
    ¬ Token.EndsSearch (Token.sequence ts finish) (stop ·.kind) first (first + i) := by
  rw [Token.EndsSearch, Token.depthAt_sequence hts hi.le, Token.sequence_of_drop hts hi]
  rintro (hend | ⟨hdepth, hstop⟩)
  · have hmem : run[i] ∈ ts.drop first := by
      rw [hts]
      exact List.mem_append_left _ (List.getElem_mem hi)
    exact hkinds _ (List.mem_of_mem_drop hmem) hend
  · rw [hrun.getElem hi hdepth] at hstop
    exact Bool.false_ne_true hstop

/-- Behind the cut stands the end, or what stops at depth zero. -/
theorem endsSearch_behind (hts : ts.drop first = run ++ rest)
    (hstops : ∀ t ∈ rest.head?, Token.depthBehind 0 run = 0 ∧ stop t.kind = true) :
    Token.EndsSearch (Token.sequence ts finish) (stop ·.kind) first (first + run.length) := by
  rw [Token.EndsSearch, Token.depthAt_sequence hts le_rfl, Token.sequence_behind hts,
    List.take_length]
  cases rest with
  | nil => exact .inl rfl
  | cons t rest => exact .inr (hstops t rfl)

/-- A cut takes what a search for the same kinds passes. -/
theorem exact_ofCut (hkinds : ∀ t ∈ ts, t.kind ≠ .endOfText) :
    (ofCut stop first ts).Exact (Token.sequence ts finish) (stop ·.kind) first := by
  obtain ⟨run, rest, hts, hrun, hstops⟩ := Token.exists_cut stop 0 (ts.drop first)
  have hcut := Token.spanUntil_of_passes hrun hstops
  rw [← hts] at hcut
  rw [ofCut, hcut]
  refine ⟨⟨⟨Nat.le_add_right _ _, endsSearch_behind hts hstops⟩, fun i hi => ?_⟩, trims_run hts⟩
  obtain ⟨j, rfl⟩ := Nat.exists_eq_add_of_le hi.1
  by_contra hlt
  exact not_endsSearch_run hkinds hts hrun (by dsimp only at hlt; omega) hi.2

end Cut

end Terminator

namespace TokenReader

/-- Whether a brace comes before a semicolon and a closing brace, so that a rule can be read. -/
def isRuleAhead (r : TokenReader) : Bool × TokenReader :=
  let (e, r) := r.search (Item.endsHead ·.kind) 0
  let (t, r) := r.look e.index
  (t.kind == .leftBrace, r)

/-- A rule searches for the brace of its block, whatever stands in front of it. -/
def searchBrace (r : TokenReader) : Terminator × TokenReader := r.search (·.kind == .leftBrace) 0

section Rules

variable {r : TokenReader}

theorem search_congr {q : TokenReader} (h : ∀ n, (q.look n).1 = (r.look n).1)
    (stop : Token → Bool) (first : Nat) : (q.search stop first).1 = (r.search stop first).1 := by
  have hexact := (search_exact q stop first).1
  rw [funext h] at hexact
  exact hexact.unique (search_exact r stop first).1

theorem isRuleAhead_iff (r : TokenReader) :
    r.isRuleAhead.1 = true ↔
      (r.look (r.search (Item.endsHead ·.kind) 0).1.index).1.kind = .leftBrace := by
  rw [← (search_exact r (Item.endsHead ·.kind) 0).2]
  exact beq_iff_eq

theorem look_isRuleAhead (r : TokenReader) (n : Nat) :
    (r.isRuleAhead.2.look n).1 = (r.look n).1 := by
  rw [← (search_exact r (Item.endsHead ·.kind) 0).2, isRuleAhead, look_look]

/-- Where a brace comes first, looking for braces alone stops at the same one. -/
theorem searchBrace_of_isRuleAhead (h : r.isRuleAhead.1 = true) :
    r.isRuleAhead.2.searchBrace.1 = (r.search (Item.endsHead ·.kind) 0).1 := by
  have hbrace := (isRuleAhead_iff r).1 h
  have hfewer : ∀ t : Token, (t.kind == .leftBrace) = true → Item.endsHead t.kind = true := by
    intro t ht
    rw [eq_of_beq ht]
    rfl
  have halone := (search_exact r (Item.endsHead ·.kind) 0).1.narrow hfewer (beq_iff_eq.2 hbrace)
  rw [searchBrace, search_congr r.look_isRuleAhead]
  exact (search_exact r _ 0).1.unique halone

end Rules

/-- The tokens ahead of the reader are those of the list, and then the one for the end. -/
structure Offers (ts : List Token) (finish : Location) (r : TokenReader) : Prop where
  kinds : ∀ t ∈ ts, t.kind ≠ .endOfText
  look_eq : ∀ n, (r.look n).1 = Token.sequence ts finish n

theorem Follows.offers {start : Location} {cs : List Char} {k : Nat} {r : TokenReader}
    (h : Follows start cs k r) : Offers ((Token.lex start cs).drop k) (start.advance cs) r := by
  refine ⟨fun t ht => ?_, fun n => ?_⟩
  · exact Token.kind_ne_endOfText_of_spelled (Token.spelled_lex start cs) t (List.mem_of_mem_drop ht)
  · rw [(h.look n).1, Token.sequence, List.getElem?_drop]
    rfl

namespace Offers

variable {ts : List Token} {finish : Location} {r : TokenReader}

theorem search (h : Offers ts finish r) (stop : TokenKind → Bool) (first : Nat) :
    (r.search (stop ·.kind) first).1 = .ofCut stop first ts := by
  have hexact := (search_exact r (stop ·.kind) first).1
  rw [funext h.look_eq] at hexact
  exact hexact.unique (Terminator.exact_ofCut h.kinds)

/-- The token behind what the cut for the head of a block takes. -/
theorem kind_look (h : Offers ts finish r) :
    (r.look (r.search (Item.endsHead ·.kind) 0).1.index).1.kind =
      Token.headKind (Token.spanUntil Item.endsHead 0 ts).2 := by
  have hcut : ts.drop 0 = (Token.spanUntil Item.endsHead 0 ts).1 ++
      (Token.spanUntil Item.endsHead 0 ts).2 := (Token.spanUntil_append Item.endsHead 0 ts).symm
  rw [h.search, h.look_eq]
  refine (congrArg Token.kind (Token.sequence_behind hcut)).trans ?_
  rcases (Token.spanUntil Item.endsHead 0 ts).2 with _ | ⟨t, rest⟩ <;> rfl

/-- The parser reads a rule exactly where one is ahead, with the tokens in front of the brace that the
rule searches for. -/
theorem readAt {t : Token} {more : List Token} (h : Offers (t :: more) finish r)
    (hplain : t.kind.startsPlain = true) (nested : Bool) (last : Location) (before : String) :
    Item.readAt nested last before t more =
      if r.isRuleAhead.1 = true then
        .ok (Item.rule before t.location ((t :: more).take r.isRuleAhead.2.searchBrace.1.index))
      else if nested then Item.declaration before t.location last (t :: more)
      else .error ⟨.declarationOutsideRule, t.location⟩ := by
  have hbrace := isRuleAhead_iff r
  rw [h.kind_look] at hbrace
  rw [Item.readAt_plain hplain]
  by_cases hahead : r.isRuleAhead.1 = true
  · have hrun := congrArg (List.take (Token.spanUntil Item.endsHead 0 (t :: more)).1.length)
      (Token.spanUntil_append Item.endsHead 0 (t :: more))
    rw [List.take_left] at hrun
    rw [if_pos (hbrace.1 hahead), if_pos hahead, searchBrace_of_isRuleAhead hahead, h.search, hrun]
    simp only [Terminator.ofCut, List.drop_zero, Nat.zero_add]
  · rw [if_neg fun hhead => hahead (hbrace.2 hhead), if_neg hahead]

end Offers

/-- From any token on every search comes to an end, on every reader: at the first token that is the one
for the end of the text or has `stop` outside of all parentheses and brackets opened on the way, and
what is written in front of it is told from the trivia behind.  Where a rule is ahead, its search for
the brace ends where the one for a brace, a semicolon or a closing brace has ended, and neither of the
latter stands in front outside of parentheses.  These are the cuts that stylesheets are read by. -/
theorem search_first_stop (r : TokenReader) :
    let token := fun n => (r.look n).1
    (∀ (stop : Token → Bool) (first : Nat),
      (r.search stop first).1.Exact token stop first ∧
        ∀ n, ((r.search stop first).2.look n).1 = token n) ∧
    (r.isRuleAhead.1 = true →
      let brace := r.isRuleAhead.2.searchBrace.1
      brace = (r.search (Item.endsHead ·.kind) 0).1 ∧ (token brace.index).kind = .leftBrace ∧
        ∀ i < brace.index, Token.depthAt token 0 i = 0 →
          (token i).kind ≠ .semicolon ∧ (token i).kind ≠ .rightBrace) ∧
    ∀ (start : Location) (s : Source) (asked : List Request),
      let q := (ofSource start s).after asked
      let ts := (Token.lex start s.rest).drop (asked.count .consume)
      (∀ n, (q.look n).1 = Token.sequence ts (start.advance s.rest) n) ∧
      (∀ stop first, (q.search (stop ·.kind) first).1 = .ofCut stop first ts) ∧
      ∀ t more nested finish before, ts = t :: more → t.kind.startsPlain = true →
        Item.readAt nested finish before t more =
          if q.isRuleAhead.1 = true then
            .ok (Item.rule before t.location (ts.take q.isRuleAhead.2.searchBrace.1.index))
          else if nested then Item.declaration before t.location finish ts
          else .error ⟨.declarationOutsideRule, t.location⟩ := by
  intro token
  refine ⟨search_exact r, fun hahead => ?_, fun start s asked => ?_⟩
  · have hbrace := searchBrace_of_isRuleAhead hahead
    have hexact := (search_exact r (Item.endsHead ·.kind) 0).1
    rw [← hbrace] at hexact
    refine ⟨hbrace, ?_, fun i hi hdepth => ?_⟩
    · rw [hbrace]
      exact (isRuleAhead_iff r).1 hahead
    · have hpasses := hexact.passes (Nat.zero_le i) hi hdepth
      constructor <;> intro hkind <;> rw [hkind] at hpasses <;> exact absurd hpasses nofun
  · intro q ts
    have hoffers : Offers ts (start.advance s.rest) q := by
      have h := ((Follows.ofSource start s).after asked).offers
      rwa [Nat.zero_add] at h
    refine ⟨hoffers.look_eq, hoffers.search, fun t more nested finish before hts hplain => ?_⟩
    rw [hts] at hoffers ⊢
    exact hoffers.readAt hplain nested finish before

/-- A closing parenthesis without its counterpart does not count, a semicolon in parentheses does not
end the search, and a comment in front of the brace is left off. -/
theorem search_first_stop_nested :
    let r := ofSource .origin (Source.ofString ")(;)/**/\x7b")
    r.isRuleAhead.1 = true ∧ r.isRuleAhead.2.searchBrace.1 = ⟨5, 4⟩ := by
  intro r
  obtain ⟨-, hrule, hcuts⟩ := search_first_stop r
  have hsearch : (r.search (Item.endsHead ·.kind) 0).1 = ⟨5, 4⟩ :=
    ((hcuts .origin (Source.ofString ")(;)/**/\x7b") []).2.1 Item.endsHead 0).trans (by decide)
  have hahead : r.isRuleAhead.1 = true := by
    rw [isRuleAhead_iff, hsearch]
    rfl
  exact ⟨hahead, (hrule hahead).1.trans hsearch⟩

end TokenReader

end GradientFallback
