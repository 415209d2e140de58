import GradientFallback.Proofs.Token.Quiet
import Mathlib.Data.List.Infix

/-! # Strings and comments with other contents

A quoted string and a comment are one token each, whatever stands between their signs, unless it ends
them.  So the content can be replaced by any other one: every other token is read as before, and
nothing that reads the tokens by their kinds sees a difference.
-/
namespace GradientFallback

/-- Quoted strings and comments. -/
def TokenKind.isEnclosed : TokenKind → Bool
  | quotedString _ => true
  | comment _ => true
  | _ => false

/-- The signs around a text that is no more than a part of one token. -/
inductive Enclosure where
  | doubleQuotes
  | singleQuotes
  | commentSigns
  deriving DecidableEq

namespace Enclosure

/-- The character that such a token starts and ends with. -/
def sign : Enclosure → Char
  | doubleQuotes => '"'
  | singleQuotes => '\''
  | commentSigns => '/'

/-- What stands between the sign and the content, on both sides. -/
def lining : Enclosure → List Char
  | commentSigns => ['*']
  | _ => []

/-- The content with its signs. -/
def wrap (e : Enclosure) (content : List Char) : List Char :=
  e.sign :: (e.lining ++ content ++ e.lining) ++ [e.sign]

/-- Nothing in the content ends the token: no `*/` in a comment, and in a string neither the quote
nor the end of a line; and nothing in a string is escaped. -/
def Allows : Enclosure → List Char → Prop
  | commentSigns, content => ¬['*', '/'] <:+: content
  | e, content => ∀ c ∈ content, c ≠ '\\' ∧ c ≠ e.sign ∧ c ≠ '\n'

/-- The kind of such a token that says `said`. -/
def kind : Enclosure → String → TokenKind
  | commentSigns, said => .comment said
  | _, said => .quotedString said

variable (e : Enclosure)

theorem isStop_sign : Scan.isStop e.sign = true := by cases e <;> rfl

theorem isBlank_sign : isBlank e.sign = false := by cases e <;> decide

theorem isLetter_sign : isLetter e.sign = false := by cases e <;> decide

theorem sign_ne_exclamation : e.sign ≠ '!' := by cases e <;> decide

theorem sign_ne_hyphen : e.sign ≠ '-' := by cases e <;> decide

theorem not_mem_wrap {c : Char} {content : List Char} (hc : c ∉ e.wrap []) (hcontent : c ∉ content) :
    c ∉ e.wrap content := by
  simp only [wrap, List.mem_append, List.mem_cons, List.not_mem_nil, not_or] at hc ⊢
  exact ⟨⟨hc.1.1, ⟨hc.1.2.2, hcontent⟩, hc.1.2.2⟩, hc.2⟩

@[simp] theorem nest_kind (said : String) (depth : Nat) : Token.nest depth (e.kind said) = depth := by
  cases e <;> rfl

theorem isTrivia_kind (a b : String) : (e.kind a).isTrivia = (e.kind b).isTrivia := by
  cases e <;> rfl

@[simp] theorem isEnclosed_kind (said : String) : (e.kind said).isEnclosed = true := by
  cases e <;> rfl

end Enclosure

/-! ## Reading the token -/

namespace Scan

theorem commentContent_eq_self {cs : List Char} (h : ¬['*', '/'] <:+: cs) :
    commentContent cs = cs := by
  rcases commentContent_cases cs with hall | ⟨ds, hds⟩
  · exact hall
  · exact absurd ⟨commentContent cs, ds, by rw [List.append_assoc]; exact hds.symm⟩ h

/-- A content that is allowed is read in front of everything. -/
theorem token_wrap {e : Enclosure} {content : List Char} (h : e.Allows content) (z : List Char) :
    token (e.wrap content ++ z) =
      some (e.kind (String.ofList content), (e.wrap content).length) := by
  have hquoted {q : Char} (hread : ∀ cs, token (q :: cs) = some (string q cs)) (hq : q ≠ '\\')
      (hall : ∀ c ∈ content, c ≠ '\\' ∧ c ≠ q ∧ c ≠ '\n') :
      token (q :: (content ++ q :: z)) =
        some (.quotedString (String.ofList content), content.length + 2) := by
    rw [hread, string_of_chars hq hall]
  cases e with
  | doubleQuotes =>
    simpa [Enclosure.wrap, Enclosure.sign, Enclosure.lining, Enclosure.kind] using
      hquoted (q := '"') (fun _ => rfl) (by decide) h
  | singleQuotes =>
    simpa [Enclosure.wrap, Enclosure.sign, Enclosure.lining, Enclosure.kind] using
      hquoted (q := '\'') (fun _ => rfl) (by decide) h
  | commentSigns =>
    have hread := token_closed_comment content z
    rw [commentContent_eq_self h] at hread
    simpa [Enclosure.wrap, Enclosure.sign, Enclosure.lining, Enclosure.kind] using hread

theorem alike_wrap (e : Enclosure) (content new x y : List Char) :
    Alike (e.wrap content ++ x) (e.wrap new ++ y) := by
  refine ⟨e.sign, _, _, e.isStop_sign, ?_, rfl, rfl⟩
  cases e with
  | commentSigns => exact fun _ => ⟨rfl, rfl⟩
  | doubleQuotes => exact fun hslash => absurd hslash (by decide)
  | singleQuotes => exact fun hslash => absurd hslash (by decide)

end Scan

namespace Token

/-- The token stands at `place` and is written with the content between the signs; what a comment
says is just that. -/
structure Encloses (e : Enclosure) (content : List Char) (place : Location) (t : Token) : Prop where
  text : t.text = e.wrap content
  kind : ∃ said, t.kind = e.kind said ∧ (e = .commentSigns → said = String.ofList content)
  location : t.location = place

/-- The token with another content. -/
def withContent (t : Token) (e : Enclosure) (content : List Char) : Token :=
  { t with kind := e.kind (String.ofList content), text := e.wrap content }

theorem not_isEnclosed_of_kind {t : Token} {k : TokenKind} (h : t.kind = k)
    (hk : k.isEnclosed = false) : ∀ u ∈ [t], u.kind.isEnclosed = false :=
  List.forall_mem_singleton.2 (by rw [h, hk])

theorem AllBlank.not_isEnclosed {ts : List Token} (h : AllBlank ts) :
    ∀ t ∈ ts, t.kind.isEnclosed = false := by
  intro t ht
  have hblank := h t ht
  rcases t with ⟨kind, place, text⟩
  cases kind <;> first | rfl | exact absurd hblank nofun

theorem encloses_withContent (t : Token) (e : Enclosure) (content : List Char) :
    (t.withContent e content).Encloses e content t.location := ⟨rfl, ⟨_, rfl, fun _ => rfl⟩, rfl⟩

/-- A token of the right kind that ends with its sign says what it encloses. -/
theorem Written.encloses {t : Token} (h : t.Written) {e : Enclosure} {content : List Char}
    (hkind : ∃ said, t.kind = e.kind said) (htext : t.text = e.wrap content) :
    t.Encloses e content t.location := by
  obtain ⟨said, hkind⟩ := hkind
  refine ⟨htext, ⟨said, hkind, ?_⟩, rfl⟩
  rintro rfl
  have hwrap : t.text = '/' :: '*' :: (content ++ ['*', '/']) := by
    simpa [Enclosure.wrap, Enclosure.sign, Enclosure.lining] using htext
  have hclosed : ['*', '/'] <:+ t.text.drop 2 := by
    rw [hwrap]
    exact List.suffix_append content _
  have hsaid := text_of_comment h hkind hclosed
  rw [hwrap] at hsaid
  rw [← String.toList_inj, String.toList_ofList]
  simpa using hsaid.symm

/-- A new content changes no other token. -/
theorem Spelled.withContent {front back : List Token} {t : Token} {e : Enclosure}
    {content : List Char} (h : Spelled (front ++ t :: back) []) (htext : t.text = e.wrap content)
    {new : List Char} (hnew : e.Allows new) :
    Spelled (front ++ t.withContent e new :: back) [] := by
  obtain ⟨hfront, -, hback⟩ := spelled_append.1 h
  refine spelled_append.2 ⟨?_, Scan.token_wrap hnew _, hback⟩
  simp only [source_cons, htext, List.append_assoc] at hfront ⊢
  exact hfront.alike (Scan.alike_wrap e content new _ _)

/-! ## Lists of tokens around it -/

theorem append_eq_append_cons {α : Type} {xs ys front back : List α} {x : α}
    (h : xs ++ ys = front ++ x :: back) :
    (∃ more, xs = front ++ x :: more ∧ back = more ++ ys) ∨
      ∃ more, front = xs ++ more ∧ ys = more ++ x :: back := by
  rcases List.append_eq_append_iff.1 h with ⟨more, rfl, rfl⟩ | ⟨more, rfl, hback⟩
  · exact .inr ⟨more, rfl, rfl⟩
  · cases more with
    | nil => exact .inr ⟨[], by simp, hback.symm⟩
    | cons y more =>
      obtain ⟨rfl, rfl⟩ := List.cons.inj hback
      exact .inl ⟨more, rfl, rfl⟩

variable {e : Enclosure} {inner content : List Char} {place : Location} {t u : Token}
  {front back : List Token}

theorem Encloses.isEnclosed (ht : t.Encloses e inner place) : t.kind.isEnclosed = true := by
  obtain ⟨said, hkind, -⟩ := ht.kind
  rw [hkind, e.isEnclosed_kind]

/-- The token does not stand among the last ones. -/
theorem Encloses.in_left (ht : t.Encloses e inner place) {xs ys : List Token}
    (hys : ∀ w ∈ ys, w.kind.isEnclosed = false) (h : xs ++ ys = front ++ t :: back) :
    ∃ more, xs = front ++ t :: more ∧ back = more ++ ys := by
  rcases append_eq_append_cons h with hleft | ⟨more, -, rfl⟩
  · exact hleft
  · have ht' := hys t (by simp)
    rw [ht.isEnclosed] at ht'
    exact absurd ht' nofun

/-- The token does not stand among the first ones. -/
theorem Encloses.in_right (ht : t.Encloses e inner place) {xs ys : List Token}
    (hxs : ∀ w ∈ xs, w.kind.isEnclosed = false) (h : xs ++ ys = front ++ t :: back) :
    ∃ more, front = xs ++ more ∧ ys = more ++ t :: back := by
  rcases append_eq_append_cons h with ⟨more, rfl, -⟩ | hright
  · have ht' := hxs t (by simp)
    rw [ht.isEnclosed] at ht'
    exact absurd ht' nofun
  · exact hright

theorem Encloses.source (ht : t.Encloses e inner place) :
    Token.source (front ++ t :: back) = Token.source front ++ e.wrap inner ++ Token.source back := by
  rw [source_append, source_cons, ht.text, List.append_assoc]

/-- Two tokens that enclose something, each with any content, at the same place. -/
structure Interchangeable (t u : Token) : Prop where
  kind : ∃ (e : Enclosure) (a b : String), t.kind = e.kind a ∧ u.kind = e.kind b
  location : u.location = t.location

theorem Encloses.interchangeable (ht : t.Encloses e inner place) (hu : u.Encloses e content place) :
    Interchangeable t u := by
  obtain ⟨a, ha, -⟩ := ht.kind
  obtain ⟨b, hb, -⟩ := hu.kind
  exact ⟨⟨e, a, b, ha, hb⟩, hu.location.trans ht.location.symm⟩

namespace Interchangeable

variable (h : Interchangeable t u)
include h

theorem isTrivia : u.isTrivia = t.isTrivia := by
  obtain ⟨e, a, b, ha, hb⟩ := h.kind
  rw [Token.isTrivia, Token.isTrivia, ha, hb, e.isTrivia_kind]

theorem depthBehind (depth : Nat) :
    Token.depthBehind depth (front ++ u :: back) = Token.depthBehind depth (front ++ t :: back) := by
  obtain ⟨e, a, b, ha, hb⟩ := h.kind
  simp only [depthBehind_append, depthBehind_cons, ha, hb, e.nest_kind]

theorem passes {stop : TokenKind → Bool} (hstop : ∀ (e : Enclosure) said, stop (e.kind said) = false)
    {depth : Nat} (hpasses : Passes stop depth (front ++ t :: back)) :
    Passes stop depth (front ++ u :: back) := by
  obtain ⟨e, a, b, ha, hb⟩ := h.kind
  simp only [passes_append, passes_cons, ha, hb, e.nest_kind] at hpasses ⊢
  exact ⟨hpasses.1, fun _ => hstop e b, hpasses.2.2⟩

theorem allTrivia (hall : AllTrivia (front ++ t :: back)) : AllTrivia (front ++ u :: back) := by
  intro v hv
  rcases List.mem_append.1 hv with hv | hv
  · exact hall v (List.mem_append_left _ hv)
  rcases List.mem_cons.1 hv with rfl | hv
  · rw [h.isTrivia]
    exact hall t (by simp)
  · exact hall v (by simp [hv])

theorem head? (hhead : ∀ v ∈ (front ++ t :: back).head?, v.isTrivia = false) :
    ∀ v ∈ (front ++ u :: back).head?, v.isTrivia = false := by
  cases front with
  | nil =>
    intro v hv
    cases hv
    rw [h.isTrivia]
    exact hhead t rfl
  | cons w front => exact hhead

theorem getLast? (hlast : ∀ v ∈ (front ++ t :: back).getLast?, v.isTrivia = false) :
    ∀ v ∈ (front ++ u :: back).getLast?, v.isTrivia = false := by
  cases back with
  | nil =>
    intro v hv
    obtain rfl : u = v := by simpa using hv
    rw [h.isTrivia]
    exact hlast t (by simp)
  | cons w back => simpa using hlast

theorem headKind {p : TokenKind → Bool} (hp : ∀ (e : Enclosure) a b, p (e.kind a) = p (e.kind b)) :
    p (Token.headKind (front ++ u :: back)) = p (Token.headKind (front ++ t :: back)) := by
  cases front with
  | nil =>
    obtain ⟨e, a, b, ha, hb⟩ := h.kind
    simp only [List.nil_append, Token.headKind, ha, hb, hp e b a]
  | cons w front => rfl

theorem start (finish : Location) :
    Token.start finish (front ++ u :: back) = Token.start finish (front ++ t :: back) := by
  cases front with
  | nil => exact h.location
  | cons w front => rfl

end Interchangeable

end Token
end GradientFallback
