import GradientFallback.Proofs.Stylesheet.Reading

/-! # Watchful reading

A watchful reader looks again at every token that it needs: a rule looks for the brace of its block by
itself, an at-rule makes sure of its keyword, and a declaration of its colon, and each of them
complains about what it finds instead.  Every complaint is one of the faults of the plain reader: a
rule always finds its brace, because it is only read where the brace was seen before, and so with the
keyword.
-/
namespace GradientFallback

/-- The kind of the token that ends a declaration. -/
def DeclarationEnd.kind : DeclarationEnd → TokenKind
  | semicolon => .semicolon
  | rightBrace => .rightBrace
  | endOfText => .endOfText

namespace Watchful

/-- What a certain token has to be. -/
inductive Wanted where
  | colon
  | leftBrace
  | atKeyword

inductive Complaint where
  | unclosedBlock
  | unexpectedBrace
  | declarationOutsideRule
  | missingProperty
  | missingValue
  /-- A token of another kind than the one that is wanted. -/
  | unexpected (wanted : Wanted) (found : TokenKind)

structure Alarm where
  complaint : Complaint
  location : Location

def Complaint.ofFault : ParseFault → Complaint
  | .unclosedBlock => unclosedBlock
  | .unexpectedBrace => unexpectedBrace
  | .declarationOutsideRule => declarationOutsideRule
  | .missingColon found => unexpected .colon found.kind
  | .missingProperty => missingProperty
  | .missingValue => missingValue

def Alarm.ofError (e : ParseError) : Alarm := ⟨.ofFault e.fault, e.location⟩

/-- The complaint about the first of the tokens. -/
def unexpected {α : Type} (wanted : Wanted) (finish : Location) (ts : List Token) : Except Alarm α :=
  .error ⟨.unexpected wanted (Token.headKind ts), Token.start finish ts⟩

/-- A rule up to its brace, which it looks for whatever stands in front of it. -/
def rule (before : String) (finish : Location) (ts : List Token) : Except Alarm (Item × Nat) :=
  let (run, rest) := Token.spanUntil (· == .leftBrace) 0 ts
  if Token.headKind rest = .leftBrace then .ok (Item.rule before (Token.start finish ts) run)
  else unexpected .leftBrace finish rest

def atRule (before : String) (finish : Location) (ts : List Token) : Except Alarm (Item × Nat) :=
  match ts with
  | ⟨.atKeyword name, place, _⟩ :: more =>
    let (item, width) := Item.atRule before name place more
    .ok (item, width + 1)
  | _ => unexpected .atKeyword finish ts

def declaration (before : String) (finish : Location) (ts : List Token) :
    Except Alarm (Item × Nat) :=
  let (_, rest) := Token.spanUntil Item.endsProperty 0 ts
  if Token.headKind rest = .colon then
    (Item.declaration before (Token.start finish ts) finish ts).mapError Alarm.ofError
  else unexpected .colon finish rest

/-- Whether a brace comes before a semicolon and a closing brace. -/
def isRuleAhead (ts : List Token) : Bool :=
  Token.headKind (Token.spanUntil Item.endsHead 0 ts).2 = .leftBrace

/-- The item that starts with the first of the tokens, which is no whitespace. -/
def readAt (nested : Bool) (finish : Location) (before : String) (ts : List Token) :
    Except Alarm (Item × Nat) :=
  match Token.headKind ts with
  | .rightBrace =>
    if nested then .ok (.closing before, 1) else .error ⟨.unexpectedBrace, Token.start finish ts⟩
  | .semicolon => .ok (.stray, 1)
  | .commentOpen => .ok (.stray, 1)
  | .commentClose => .ok (.stray, 1)
  | .comment content => .ok (.leaf (.comment ⟨content, Token.start finish ts, before⟩), 1)
  | .atKeyword _ => atRule before finish ts
  | _ =>
    if isRuleAhead ts then rule before finish ts
    else if nested then declaration before finish ts
    else .error ⟨.declarationOutsideRule, Token.start finish ts⟩

def read (lenient nested : Bool) (finish : Location) (ts : List Token) :
    Except Alarm (Item × Nat) :=
  let blanks := ts.takeWhile Token.isWhitespace
  match ts.drop blanks.length with
  | [] => .ok (.ending (Item.sourceText blanks), blanks.length)
  | t :: more =>
    match readAt nested finish (Item.sourceText blanks) (t :: more) with
    | .ok (item, width) => .ok (item, blanks.length + width)
    | .error e =>
      if lenient then .ok (.stray, blanks.length + Item.brokenWidth (t :: more)) else .error e

def readFrom (lenient : Bool) (finish : Location) :
    Nat → Nat → List Token → Except Alarm (List (Piece Token Item))
  | _, d, [] => if d = 0 ∨ lenient then .ok [] else .error ⟨.unclosedBlock, finish⟩
  | pending + 1, d, _ :: ts => readFrom lenient finish pending d ts
  | 0, d, t :: ts =>
    match read lenient (d != 0) finish (t :: ts) with
    | .error e => .error e
    | .ok (item, width) =>
      (readFrom lenient finish (width - 1) (item.depth d) ts).map
        fun items => ⟨item, t :: ts.take (width - 1)⟩ :: items

def parse (config : ParseConfig) (text : String) : Except Alarm Stylesheet :=
  let cs := unifyLineEnds text.toList
  (readFrom config.lenient (config.start.advance cs) 0 0 (Token.lex config.start cs)).map
    fun items => .ofItems config.origin (Piece.values items)

/-! ## The plain reader complains about the same -/

variable {nested : Bool} {before : String} {finish : Location} {t : Token} {ts : List Token}

/-- Where a brace comes first, looking for braces alone stops at the same one. -/
theorem rule_eq (h : isRuleAhead (t :: ts) = true) :
    rule before finish (t :: ts) =
      .ok (Item.rule before t.location (Token.spanUntil Item.endsHead 0 (t :: ts)).1) := by
  obtain ⟨run, rest, hts, hrun, hstops⟩ := Token.exists_cut Item.endsHead 0 (t :: ts)
  have hcut := Token.spanUntil_of_passes hrun hstops
  rw [← hts] at hcut
  have hbrace : Token.headKind rest = .leftBrace := by
    rw [isRuleAhead, decide_eq_true_eq, hcut] at h
    exact h
  have halone : Token.spanUntil (· == .leftBrace) 0 (t :: ts) = (run, rest) := by
    rw [hts]
    refine Token.spanUntil_of_passes (hrun.mono fun k hk => ?_) fun u hu => ?_
    · rw [eq_of_beq hk]
      rfl
    · cases rest with
      | nil => exact absurd hu nofun
      | cons v rest =>
        cases hu
        exact ⟨(hstops u rfl).1, beq_iff_eq.2 hbrace⟩
  simp only [rule, halone, hbrace, if_true, hcut]
  rfl

/-- What stands where the colon is missing ends the declaration. -/
theorem kind_declarationEnd {rest : List Token}
    (h : ∀ u ∈ rest.head?, Item.endsValue u.kind = true) :
    (Item.declarationEnd rest).kind = Token.headKind rest := by
  cases rest with
  | nil => rfl
  | cons u rest =>
    have hu := h u rfl
    rcases u with ⟨kind, place, text⟩
    cases kind <;> simp_all [Item.endsValue, Item.declarationEnd, Token.headKind,
      DeclarationEnd.kind]

theorem endsProperty_cases {k : TokenKind} (h : Item.endsProperty k = true) :
    k = .colon ∨ Item.endsValue k = true := by
  cases k <;> simp_all [Item.endsProperty, Item.endsValue]

/-- What stops a name, but for a colon, stops a value. -/
theorem endsValue_of_no_colon {rest : List Token}
    (h : ∀ u ∈ rest.head?, Item.endsProperty u.kind = true) (hcolon : Token.headKind rest ≠ .colon) :
    ∀ u ∈ rest.head?, Item.endsValue u.kind = true := by
  intro u hu
  obtain ⟨more, rfl⟩ := List.head?_eq_some_iff.1 hu
  exact (endsProperty_cases (h u rfl)).resolve_left hcolon

theorem declaration_eq :
    declaration before finish (t :: ts) =
      (Item.declaration before t.location finish (t :: ts)).mapError Alarm.ofError := by
  obtain ⟨run, rest, hts, hrun, hstops⟩ := Token.exists_cut Item.endsProperty 0 (t :: ts)
  have hcut := Token.spanUntil_of_passes hrun hstops
  rw [← hts] at hcut
  by_cases hcolon : Token.headKind rest = .colon
  · simp only [declaration, hcut, hcolon, if_true]
    rfl
  · have hfault : Item.declaration before t.location finish (t :: ts) =
        .error ⟨.missingColon (Item.declarationEnd rest), Token.start finish rest⟩ := by
      simp only [Item.declaration, hcut]
      split
      · exact absurd rfl hcolon
      · rfl
    have hkind := kind_declarationEnd (endsValue_of_no_colon (fun u hu => (hstops u hu).2) hcolon)
    rw [hfault]
    simp only [declaration, hcut, if_neg hcolon, unexpected, Except.mapError, Alarm.ofError,
      Complaint.ofFault, hkind]

theorem readAt_eq :
    readAt nested finish before (t :: ts) =
      (Item.readAt nested finish before t ts).mapError Alarm.ofError := by
  have hother : (if isRuleAhead (t :: ts) then rule before finish (t :: ts)
      else if nested then declaration before finish (t :: ts)
      else .error ⟨.declarationOutsideRule, t.location⟩) =
        (if Token.headKind (Token.spanUntil Item.endsHead 0 (t :: ts)).2 = .leftBrace then
          .ok (Item.rule before t.location (Token.spanUntil Item.endsHead 0 (t :: ts)).1)
        else if nested then Item.declaration before t.location finish (t :: ts)
        else .error ⟨.declarationOutsideRule, t.location⟩ :
          Except ParseError (Item × Nat)).mapError Alarm.ofError := by
    by_cases hahead : isRuleAhead (t :: ts) = true
    · rw [if_pos hahead, rule_eq hahead, if_pos (of_decide_eq_true hahead)]
      rfl
    · rw [if_neg hahead, if_neg fun hbrace => hahead (decide_eq_true hbrace), declaration_eq]
      cases nested <;> rfl
  rcases t with ⟨kind, place, text⟩
  cases kind with
  | rightBrace => cases nested <;> rfl
  | semicolon => rfl
  | commentOpen => rfl
  | commentClose => rfl
  | comment content => rfl
  | atKeyword name => rfl
  | _ => exact hother

theorem read_eq (lenient nested : Bool) (finish : Location) (ts : List Token) :
    read lenient nested finish ts =
      (Item.read lenient nested finish ts).mapError Alarm.ofError := by
  simp only [read, Item.read]
  rcases ts.drop (ts.takeWhile Token.isWhitespace).length with _ | ⟨t, more⟩
  · rfl
  · simp only [readAt_eq]
    rcases Item.readAt nested finish _ t more with e | r
    · cases lenient <;> rfl
    · rfl

theorem readFrom_eq (lenient : Bool) (finish : Location) (pending d : Nat) (ts : List Token) :
    readFrom lenient finish pending d ts =
      (Item.readFrom lenient finish pending d ts).mapError Alarm.ofError := by
  induction ts generalizing pending d with
  | nil =>
    rw [readFrom, Item.readFrom]
    split <;> rfl
  | cons t ts ih =>
    cases pending with
    | succ pending => exact ih pending d
    | zero =>
      rw [readFrom, Item.readFrom, read_eq]
      rcases Item.read lenient (d != 0) finish (t :: ts) with e | ⟨item, width⟩
      · rfl
      · simp only [Except.mapError, ih]
        rcases Item.readFrom lenient finish (width - 1) (item.depth d) ts with e | items <;> rfl

/-- A watchful reader reads what the plain one reads, and complains about its faults only. -/
theorem parse_eq (config : ParseConfig) (text : String) :
    parse config text = (Stylesheet.parse config text).mapError Alarm.ofError := by
  rw [parse, readFrom_eq, Stylesheet.parse, Stylesheet.ofChars, Stylesheet.ofTokens, Item.readAll]
  rcases Item.readFrom config.lenient _ 0 0 _ with e | items <;> rfl

end Watchful
end GradientFallback
