import GradientFallback.Proofs.Token.Consuming
import Mathlib.Order.Bounds.Basic

/-! # Looking ahead changes nothing

A reader that is asked for tokens in any order answers as if the tokens of its text stood in one
fixed sequence: looking ahead, however far, does not change what is consumed afterwards.
-/
namespace GradientFallback

namespace Token

/-- The tokens of a text by their number; behind the last one there is the one for the end, again
and again. -/
def stream (start : Location) (cs : List Char) (i : Nat) : Token :=
  (lex start cs)[i]?.getD (atEnd (start.advance cs))

variable (start : Location) (cs : List Char)

theorem stream_of_length_le {i : Nat} (h : (lex start cs).length ≤ i) :
    stream start cs i = atEnd (start.advance cs) := by
  rw [stream, List.getElem?_eq_none h, Option.getD_none]

/-- Each token of the sequence stands where the texts of the tokens before it end. -/
theorem location_stream (i : Nat) :
    (stream start cs i).location = start.advance (source ((lex start cs).take i)) := by
  rcases Nat.lt_or_ge i (lex start cs).length with hi | hi
  · have hall : (settleAll start (lex start cs))[i]? = some (stream start cs i) := by
      rw [← all_eq_settleAll, all, List.getElem?_append_left hi, stream,
        List.getElem?_eq_getElem hi, Option.getD_some]
    exact location_settleAll start hall
  · rw [stream_of_length_le start cs hi, List.take_of_length_le hi, source_lex]
    rfl

/-- There are no more tokens than characters. -/
theorem length_le_of_spelled {ts : List Token} {after : List Char} (h : Spelled ts after) :
    ts.length ≤ (source ts).length := by
  induction ts with
  | nil => exact le_rfl
  | cons t ts ih =>
    have hothers := ih h.2
    have ht := List.length_pos_iff.2 (text_ne_nil_of_spelled h t List.mem_cons_self)
    rw [source_cons, List.length_append, List.length_cons]
    omega

end Token

namespace TokenReader

/-- What a reader is asked for. -/
inductive Request where
  | consume
  | look (n : Nat)
  | lookSignificant (n : Nat)
  | location
  | offsetOf (n : Nat)
  deriving DecidableEq

/-- The reader once it has answered. -/
def answered (r : TokenReader) : Request → TokenReader
  | .consume => r.consume.2
  | .look n => (r.look n).2
  | .lookSignificant n => (r.lookSignificant n).2
  | .location => r.location.2
  | .offsetOf n => (r.offsetOf n).2

/-- The reader once it has answered one request after the other. -/
def after (r : TokenReader) (asked : List Request) : TokenReader := asked.foldl answered r

/-- The first `m` tokens of the text `cs` have been read, and the others have not. -/
structure HasRead (start : Location) (cs : List Char) (m : Nat) (r : TokenReader) : Prop where
  start_eq : r.start = start
  unread_eq : r.unread = Token.source ((Token.lex start cs).drop m)
  here_eq : r.here = Location.origin.advance (Token.source ((Token.lex start cs).take m))

/-- `k` tokens of the text `cs` have been consumed, and the tokens kept are the next ones. -/
structure Follows (start : Location) (cs : List Char) (k : Nat) (r : TokenReader) : Prop where
  hasRead : HasRead start cs (k + r.ahead.length) r
  ahead_eq : ∀ i < r.ahead.length, r.ahead[i]? = some (Token.stream start cs (k + i))

variable {start : Location} {cs : List Char} {r : TokenReader}

namespace HasRead

variable {m : Nat}

theorem place (h : HasRead start cs m r) : r.place = (Token.stream start cs m).location := by
  rw [TokenReader.place, h.start_eq, h.here_eq, Location.within_advance_origin,
    Token.location_stream]

/-- The next token is read with the characters it is written with. -/
theorem fetch_token (h : HasRead start cs m r) {t : Token}
    (htoken : (Token.lex start cs)[m]? = some t) :
    r.fetch.1 = t ∧ HasRead start cs (m + 1) r.fetch.2 ∧ r.fetch.2.ahead = r.ahead := by
  have hdrop : (Token.lex start cs).drop m = t :: (Token.lex start cs).drop (m + 1) := by
    rw [List.drop_eq_getElem?_toList_append, htoken]
    rfl
  have htake : (Token.lex start cs).take (m + 1) = (Token.lex start cs).take m ++ [t] := by
    rw [List.take_add_one, htoken]
    rfl
  have hunread : r.unread = t.text ++ Token.source ((Token.lex start cs).drop (m + 1)) := by
    rw [h.unread_eq, hdrop, Token.source_cons]
  have hscan : Scan.token r.unread = some (t.kind, t.text.length) := by
    have hspelled := Token.spelled_lex start cs
    rw [← List.take_append_drop m (Token.lex start cs), hdrop] at hspelled
    have hread := (Token.spelled_cons.1 (Token.spelled_append.1 hspelled).2).1
    rwa [List.append_nil, ← hunread] at hread
  have hfetch : r.fetch = (⟨t.kind, r.place, t.text⟩, { r with
      unread := Token.source ((Token.lex start cs).drop (m + 1)),
      here := r.here.advance t.text }) := by
    simp only [TokenReader.fetch, hscan]
    rw [hunread, List.take_left, List.drop_left]
  have hplace := h.place
  rw [Token.stream, htoken, Option.getD_some] at hplace
  rw [hfetch, hplace]
  refine ⟨rfl, ⟨h.start_eq, rfl, ?_⟩, rfl⟩
  rw [htake, Token.source_append, Location.advance_append, ← h.here_eq, Token.source_cons,
    Token.source_nil, List.append_nil]

/-- Behind the last token the one for the end is read once more. -/
theorem fetch_end (h : HasRead start cs m r) (hm : (Token.lex start cs).length ≤ m) :
    r.fetch.1 = Token.atEnd (start.advance cs) ∧ HasRead start cs (m + 1) r.fetch.2 ∧
      r.fetch.2.ahead = r.ahead := by
  have hunread : r.unread = [] := by
    rw [h.unread_eq, List.drop_of_length_le hm, Token.source_nil]
  have hfetch : r.fetch = (Token.atEnd r.place, r) := by
    rw [TokenReader.fetch, hunread, Scan.token]
  rw [hfetch, h.place, Token.stream_of_length_le start cs hm]
  refine ⟨rfl, ⟨h.start_eq, ?_, ?_⟩, rfl⟩
  · rw [hunread, List.drop_of_length_le (Nat.le_succ_of_le hm), Token.source_nil]
  · rw [h.here_eq, List.take_of_length_le hm, List.take_of_length_le (Nat.le_succ_of_le hm)]

theorem fetch (h : HasRead start cs m r) :
    r.fetch.1 = Token.stream start cs m ∧ HasRead start cs (m + 1) r.fetch.2 ∧
      r.fetch.2.ahead = r.ahead := by
  rcases Nat.lt_or_ge m (Token.lex start cs).length with hm | hm
  · have htoken := List.getElem?_eq_getElem hm
    rw [Token.stream, htoken, Option.getD_some]
    exact h.fetch_token htoken
  · rw [Token.stream_of_length_le start cs hm]
    exact h.fetch_end hm

end HasRead

namespace Follows

variable {k : Nat}

theorem ofSource (start : Location) (s : Source) :
    Follows start s.rest 0 (TokenReader.ofSource start s) :=
  ⟨⟨rfl, (Token.source_lex start s.rest).symm, rfl⟩, nofun⟩

/-- A token that is read is kept behind the others. -/
theorem keep (h : Follows start cs k r) :
    Follows start cs k { r.fetch.2 with ahead := r.fetch.2.ahead ++ [r.fetch.1] } := by
  obtain ⟨htoken, hread, hahead⟩ := h.hasRead.fetch
  rw [hahead, htoken]
  refine ⟨⟨hread.start_eq, ?_, ?_⟩, fun i hi => ?_⟩
  · rw [List.length_append, List.length_singleton, ← Nat.add_assoc]
    exact hread.unread_eq
  · rw [List.length_append, List.length_singleton, ← Nat.add_assoc]
    exact hread.here_eq
  · rw [List.length_append, List.length_singleton] at hi
    rcases Nat.lt_succ_iff_lt_or_eq.1 hi with hlt | rfl
    · rw [List.getElem?_append_left hlt, h.ahead_eq i hlt]
    · rw [List.getElem?_concat_length]

theorem fill (h : Follows start cs k r) (n : Nat) :
    Follows start cs k (r.fill n) ∧ (r.fill n).ahead.length = r.ahead.length + n := by
  induction n generalizing r with
  | zero => exact ⟨h, rfl⟩
  | succ n ih =>
    obtain ⟨hfollows, hlength⟩ := ih h.keep
    refine ⟨hfollows, hlength.trans ?_⟩
    rw [List.length_append, List.length_singleton, h.hasRead.fetch.2.2]
    omega

theorem require (h : Follows start cs k r) (n : Nat) :
    Follows start cs k (r.require n) ∧ n ≤ (r.require n).ahead.length := by
  obtain ⟨hfollows, hlength⟩ := h.fill (n - r.ahead.length)
  exact ⟨hfollows, by rw [TokenReader.require, hlength]; omega⟩

/-- Looking ahead gives the token of that number, and keeps it. -/
theorem look (h : Follows start cs k r) (n : Nat) :
    (r.look n).1 = Token.stream start cs (k + n) ∧ Follows start cs k (r.look n).2 ∧
      n < (r.look n).2.ahead.length := by
  obtain ⟨hfollows, hlength⟩ := h.require (n + 1)
  refine ⟨?_, hfollows, hlength⟩
  rw [TokenReader.look, hfollows.ahead_eq n hlength, Option.getD_some]

/-- Consuming gives the next token and passes it. -/
theorem consume (h : Follows start cs k r) :
    r.consume.1 = Token.stream start cs k ∧ Follows start cs (k + 1) r.consume.2 := by
  obtain ⟨htoken, hfollows, hlength⟩ := h.look 0
  refine ⟨htoken, ⟨?_, fun i hi => ?_⟩⟩
  · have hcount : k + 1 + (r.look 0).2.ahead.tail.length = k + (r.look 0).2.ahead.length := by
      rw [List.length_tail]
      omega
    have hread := hfollows.hasRead
    rw [← hcount] at hread
    exact ⟨hread.start_eq, hread.unread_eq, hread.here_eq⟩
  · have hnext := hfollows.ahead_eq (i + 1) (by
      have hi : i < (r.look 0).2.ahead.tail.length := hi
      rw [List.length_tail] at hi
      omega)
    rw [Nat.add_assoc, Nat.add_comm 1 i, ← hnext]
    exact List.getElem?_tail

/-! ## Looking past trivia -/

theorem isTrivia_end {i : Nat} (h : (Token.lex start cs).length ≤ i) :
    (Token.stream start cs i).isTrivia = false := by
  rw [Token.stream_of_length_le start cs h]
  rfl

/-- With enough tries to come to the end of the text, the first token that is no trivia is found. -/
theorem lookPastTrivia (h : Follows start cs k r) {tries n : Nat}
    (htries : (Token.lex start cs).length ≤ k + n + tries) :
    Follows start cs k (r.lookPastTrivia tries n).2 ∧
      (r.lookPastTrivia tries n).1.2 = Token.stream start cs (k + (r.lookPastTrivia tries n).1.1) ∧
      IsLeast {i | n ≤ i ∧ (Token.stream start cs (k + i)).isTrivia = false}
        (r.lookPastTrivia tries n).1.1 := by
  induction tries generalizing n r with
  | zero =>
    obtain ⟨htoken, hfollows, -⟩ := h.look n
    exact ⟨hfollows, htoken, ⟨le_rfl, isTrivia_end htries⟩, fun i hi => hi.1⟩
  | succ tries ih =>
    obtain ⟨htoken, hfollows, -⟩ := h.look n
    rw [TokenReader.lookPastTrivia]
    dsimp only
    split
    · next htrivia =>
      rw [htoken] at htrivia
      obtain ⟨hbehind, hfound, hleast⟩ := ih hfollows (n := n + 1) (by omega)
      refine ⟨hbehind, hfound, ⟨Nat.le_of_succ_le hleast.1.1, hleast.1.2⟩, fun i hi => ?_⟩
      refine hleast.2 ⟨Nat.lt_of_le_of_ne hi.1 ?_, hi.2⟩
      rintro rfl
      exact absurd htrivia (Bool.eq_false_iff.1 hi.2)
    · next htrivia =>
      rw [htoken] at htrivia
      exact ⟨hfollows, htoken, ⟨le_rfl, Bool.eq_false_iff.2 htrivia⟩, fun i hi => hi.1⟩

/-- More tries than are needed to come to the end of the text make no difference. -/
theorem lookPastTrivia_add (h : Follows start cs k r) {tries n : Nat}
    (htries : (Token.lex start cs).length ≤ k + n + tries) (more : Nat) :
    r.lookPastTrivia (tries + more) n = r.lookPastTrivia tries n := by
  induction tries generalizing n r with
  | zero =>
    have htrivia : (r.look n).1.isTrivia = false := by
      rw [(h.look n).1]
      exact isTrivia_end htries
    rw [Nat.zero_add]
    cases more with
    | zero => rfl
    | succ more => simp only [TokenReader.lookPastTrivia, htrivia, Bool.false_eq_true, if_false]
  | succ tries ih =>
    have hothers := ih (h.look n).2.1 (n := n + 1) (by omega)
    rw [Nat.add_right_comm]
    simp only [TokenReader.lookPastTrivia, hothers]

/-- The tokens kept and the characters unread are enough tries. -/
theorem tries (h : Follows start cs k r) (n : Nat) :
    (Token.lex start cs).length ≤ k + n + (r.ahead.length + r.unread.length) := by
  have hspelled := Token.spelled_lex start cs
  rw [← List.take_append_drop (k + r.ahead.length) (Token.lex start cs)] at hspelled
  have hunread := Token.length_le_of_spelled (Token.spelled_append.1 hspelled).2
  rw [← h.hasRead.unread_eq, List.length_drop] at hunread
  omega

theorem lookSignificant (h : Follows start cs k r) (n : Nat) :
    Follows start cs k (r.lookSignificant n).2 ∧
      (r.lookSignificant n).1.2 = Token.stream start cs (k + (r.lookSignificant n).1.1) ∧
      IsLeast {i | n ≤ i ∧ (Token.stream start cs (k + i)).isTrivia = false}
        (r.lookSignificant n).1.1 := h.lookPastTrivia (h.tries n)

/-- Passing trivia is a loop: as long as trivia comes next it goes one place on. -/
theorem lookSignificant_eq (h : Follows start cs k r) (n : Nat) :
    r.lookSignificant n =
      if (r.look n).1.isTrivia then (r.look n).2.lookSignificant (n + 1)
      else ((n, (r.look n).1), (r.look n).2) := by
  have hbehind := (h.look n).2.1
  have htries := h.tries n
  have henough : (Token.lex start cs).length ≤ k + (n + 1) + (r.ahead.length + r.unread.length) := by
    omega
  have hmore := h.lookPastTrivia_add htries 1
  have hfirst := hbehind.lookPastTrivia_add (hbehind.tries (n + 1))
    (r.ahead.length + r.unread.length)
  have hlast := hbehind.lookPastTrivia_add henough
    ((r.look n).2.ahead.length + (r.look n).2.unread.length)
  rw [Nat.add_comm, hlast] at hfirst
  rw [TokenReader.lookSignificant, ← hmore, TokenReader.lookPastTrivia]
  dsimp only
  rw [hfirst]
  rfl

/-! ## Distances -/

/-- The distance of a token from the start of the text is the length of the tokens before it. -/
theorem offsetOf (h : Follows start cs k r) (n : Nat) :
    (r.offsetOf n).1 = (Token.source ((Token.lex start cs).take (k + n))).length := by
  obtain ⟨htoken, hfollows, -⟩ := h.look n
  have hdistance : (r.offsetOf n).1 =
      (r.look n).1.location.offset - (r.look n).2.start.offset := rfl
  rw [hdistance, htoken, hfollows.hasRead.start_eq, Token.location_stream, Location.advance_offset,
    Nat.add_sub_cancel_left]

/-! ## Runs -/

theorem answered (h : Follows start cs k r) (q : Request) :
    Follows start cs (k + if q = .consume then 1 else 0) (r.answered q) := by
  cases q with
  | consume => exact h.consume.2
  | look n => exact (h.look n).2.1
  | lookSignificant n => exact (h.lookSignificant n).1
  | location => exact (h.look 0).2.1
  | offsetOf n => exact (h.look n).2.1

theorem after (h : Follows start cs k r) (asked : List Request) :
    Follows start cs (k + asked.count .consume) (r.after asked) := by
  induction asked generalizing k r with
  | nil => exact h
  | cons q asked ih =>
    have hothers := ih (h.answered q)
    rw [List.count_cons, Nat.add_comm (asked.count _), ← Nat.add_assoc]
    simp only [beq_iff_eq]
    exact hothers

end Follows

/-- Whatever has been asked before, a reader answers from one fixed sequence of tokens, in which only
consuming goes on: with `k` tokens consumed the next one is number `k`, and the one `n` places ahead
is number `k + n`.  Passing trivia, one token after the other, always comes to the first token that
is none.  Places and distances are those of the tokens; a distance counts from the start of the
text. -/
theorem after_requests (start : Location) (s : Source) (asked : List Request) :
    let r := (ofSource start s).after asked
    let token := fun i => Token.stream start s.rest (asked.count .consume + i)
    r.consume.1 = token 0 ∧
      (∀ n, (r.look n).1 = token n) ∧
      (∀ n, IsLeast {i | n ≤ i ∧ (token i).isTrivia = false} (r.lookSignificant n).1.1 ∧
        (r.lookSignificant n).1.2 = token (r.lookSignificant n).1.1) ∧
      (∀ n, r.lookSignificant n =
        if (r.look n).1.isTrivia then (r.look n).2.lookSignificant (n + 1)
        else ((n, (r.look n).1), (r.look n).2)) ∧
      r.location.1 = (token 0).location ∧
      ∀ n, start.offset + (r.offsetOf n).1 = (token n).location.offset := by
  intro r token
  have h := (Follows.ofSource start s).after asked
  rw [Nat.zero_add] at h
  refine ⟨h.consume.1, fun n => (h.look n).1, fun n => ?_, h.lookSignificant_eq, ?_, fun n => ?_⟩
  · obtain ⟨-, hfound, hleast⟩ := h.lookSignificant n
    exact ⟨hleast, hfound⟩
  · exact congrArg Token.location (h.look 0).1
  · rw [h.offsetOf n, Token.location_stream, Location.advance_offset]

/-! ## Texts between tokens -/

@[simp] theorem fetch_text (r : TokenReader) : r.fetch.2.text = r.text := by
  unfold fetch
  split <;> rfl

@[simp] theorem fill_text (n : Nat) (r : TokenReader) : (r.fill n).text = r.text := by
  induction n generalizing r with
  | zero => rfl
  | succ n ih => exact (ih _).trans r.fetch_text

@[simp] theorem look_text (n : Nat) (r : TokenReader) : (r.look n).2.text = r.text :=
  fill_text _ r

theorem lookPastTrivia_text (tries n : Nat) (r : TokenReader) :
    (r.lookPastTrivia tries n).2.text = r.text := by
  induction tries generalizing n r with
  | zero => exact r.look_text n
  | succ tries ih =>
    rw [lookPastTrivia]
    dsimp only
    split
    · rw [ih, look_text]
    · exact r.look_text n

theorem answered_text (r : TokenReader) (q : Request) : (r.answered q).text = r.text := by
  cases q with
  | consume => exact r.look_text 0
  | look n => exact r.look_text n
  | lookSignificant n => exact lookPastTrivia_text _ n r
  | location => exact r.look_text 0
  | offsetOf n => exact r.look_text n

theorem after_text (r : TokenReader) (asked : List Request) : (r.after asked).text = r.text := by
  induction asked generalizing r with
  | nil => rfl
  | cons q asked ih => exact (ih _).trans (r.answered_text q)

theorem cut_source (ts : List Token) {i j : Nat} (h : i ≤ j) :
    cut (Token.source ts) (Token.source (ts.take i)).length (Token.source (ts.take j)).length =
      Token.source ((ts.take j).drop i) := by
  have hfront : ts.take j = ts.take i ++ (ts.take j).drop i := by
    conv_lhs => rw [← List.take_append_drop i (ts.take j), List.take_take, Nat.min_eq_left h]
  have htext : Token.source ts = Token.source (ts.take i) ++
      (Token.source ((ts.take j).drop i) ++ Token.source (ts.drop j)) := by
    rw [← List.append_assoc, ← Token.source_append, ← hfront, ← Token.source_append,
      List.take_append_drop]
  have hlength : (Token.source (ts.take j)).length =
      (Token.source (ts.take i) ++ Token.source ((ts.take j).drop i)).length := by
    rw [← Token.source_append, ← hfront]
  rw [htext, hlength, cut_append]

/-- The piece of the text between the distances of two tokens is what the tokens from the one up to
the other are written with, wherever the text starts and whatever has been asked before. -/
theorem slice_offsetOf (start : Location) (text : String) (asked : List Request) (i j : Nat) :
    let r := (ofSource start (Source.ofString text)).after asked
    let k := asked.count .consume
    r.slice (r.offsetOf i).1 (r.offsetOf (i + j)).1 =
      Token.source (((Token.lex start (unifyLineEnds text.toList)).drop (k + i)).take j) := by
  intro r k
  have h := (Follows.ofSource start (Source.ofString text)).after asked
  have htext : r.text = Token.source (Token.lex start (unifyLineEnds text.toList)) := by
    rw [after_text, Token.source_lex]
    rfl
  rw [Nat.zero_add] at h
  rw [slice, h.offsetOf, h.offsetOf, htext]
  refine (cut_source _ (by omega)).trans ?_
  rw [List.drop_take]
  congr 2
  omega

end TokenReader
end GradientFallback
