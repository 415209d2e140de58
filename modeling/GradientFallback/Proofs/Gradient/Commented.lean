import GradientFallback.Proofs.Color.Asterisk
import GradientFallback.Proofs.Gradient.Caseless
import GradientFallback.Proofs.Gradient.Inserting
import GradientFallback.Proofs.Stylesheet.Placing
import GradientFallback.Proofs.Text.Joining
import GradientFallback.Proofs.Token.Bordering

/-! # Comments in a gradient

A comment next to whitespace makes no difference to the filter of a gradient, except for a few
places.  Behind the word `to` there has to be whitespace at once, the arguments of a color function
are a color with all that stands in them, and some tokens look at what follows them: a lone
backslash, a string that is broken off and the parenthesis behind `url`.
-/
namespace GradientFallback

namespace LegacyFilter

/-! ## Filters of gradients with another color -/

/-- There is a filter if and only if the colors at both ends are colors. -/
theorem ofGradient_isOk {α : Type} [AngleNumber α] (g : Gradient α) (text : String) :
    (∃ f, ofGradient g text = .ok f) ↔
      (Color.parse g.firstColor).toOption.isSome ∧ (Color.parse g.lastColor).toOption.isSome := by
  have hcolors (start finish : String) (axis : Axis) :
      (∃ value, ofColors start finish axis = .ok value) ↔
        (Color.parse start).toOption.isSome ∧ (Color.parse finish).toOption.isSome := by
    unfold ofColors
    cases Color.parse start with
    | error e => simp [Except.toOption]
    | ok s => cases Color.parse finish <;> simp [Except.toOption]
  by_cases hturned : isTurned (Direction.ofHeading g.heading).side = true
  · rw [and_comm, ← hcolors _ _ (Direction.ofHeading g.heading).side.axis]
    simp only [ofGradient, if_pos hturned]
    cases ofColors g.lastColor g.firstColor (Direction.ofHeading g.heading).side.axis <;> simp
  · rw [← hcolors _ _ (Direction.ofHeading g.heading).side.axis]
    simp only [ofGradient, if_neg hturned]
    cases ofColors g.firstColor g.lastColor (Direction.ofHeading g.heading).side.axis <;> simp

theorem mapError_of_not_ok {α : Type} [AngleNumber α] {g : Gradient α} {text : String}
    (h : ¬∃ f, ofGradient g text = .ok f) :
    (ofGradient g text).mapError GradientError.kind = .error .colorError := by
  rw [ofGradient] at h ⊢
  split
  · next value hvalue =>
    rw [hvalue] at h
    exact absurd ⟨_, rfl⟩ h
  · rfl

/-- A color in the middle does not matter, and one at an end that is none is in the way of a
filter. -/
theorem ofGradient_set {α : Type} [AngleNumber α] {g : Gradient α} {i : Nat}
    (hi : i < g.stops.length) {s : ColorStop} (hs : (Color.parse s.color).toOption = none)
    (text text' : String)
    (hmiddle : (∃ f, ofGradient g text = .ok f) → i ≠ 0 ∧ i + 1 ≠ g.stops.length) :
    (ofGradient ⟨g.heading, g.stops.set i s⟩ text').mapError GradientError.kind =
      (ofGradient g text).mapError GradientError.kind := by
  have hfirst (hzero : i ≠ 0) :
      Gradient.firstColor ⟨g.heading, g.stops.set i s⟩ = g.firstColor := by
    simp only [Gradient.firstColor, List.head?_eq_getElem?, List.getElem?_set_ne hzero]
  have hlast (hend : i + 1 ≠ g.stops.length) :
      Gradient.lastColor ⟨g.heading, g.stops.set i s⟩ = g.lastColor := by
    have hne : i ≠ g.stops.length - 1 := by omega
    simp only [Gradient.lastColor, List.getLast?_eq_getElem?, List.length_set,
      List.getElem?_set_ne hne]
  by_cases hends : i ≠ 0 ∧ i + 1 ≠ g.stops.length
  · have hheading : (Gradient.mk g.heading (g.stops.set i s)).heading = g.heading := rfl
    exact ofGradient_congr hheading (by simp) (by rw [hfirst hends.1]) (by rw [hlast hends.2]) text
      text'
  · have hnew : ¬∃ f, ofGradient ⟨g.heading, g.stops.set i s⟩ text' = .ok f := by
      rw [ofGradient_isOk]
      rintro ⟨hstart, hfinish⟩
      refine hends ⟨?_, fun hend => ?_⟩
      · rintro rfl
        have hcolor : Gradient.firstColor ⟨g.heading, g.stops.set 0 s⟩ = s.color := by
          simp [Gradient.firstColor, List.head?_eq_getElem?, hi]
        rw [hcolor, hs] at hstart
        exact Bool.false_ne_true hstart
      · have hcolor : Gradient.lastColor ⟨g.heading, g.stops.set i s⟩ = s.color := by
          have hat : g.stops.length - 1 = i := by omega
          simp [Gradient.lastColor, List.getLast?_eq_getElem?, hat, hi]
        rw [hcolor, hs] at hfinish
        exact Bool.false_ne_true hfinish
    rw [mapError_of_not_ok hnew, mapError_of_not_ok fun hold => hends (hmiddle hold)]

end LegacyFilter

/-! ## Texts and their tokens -/

namespace Gradient

/-- The gradient of a text is that of tokens that the text is read as. -/
theorem parse?_of_spelled {ts : List Token} (h : Token.Spelled ts []) {text : String}
    (htext : unifyLineEnds text.toList = Token.source ts) : parse? text = ofTokens? ts := by
  have hrespells : Token.Respells id Token.unplaced :=
    ⟨fun _ => rfl, fun t => (List.map_id t.text).symm⟩
  have hunplaced (us : List Token) : ofTokens? (us.map Token.unplaced) = ofTokens? us := by
    have hid : ColorStop.mapText id = id := by
      funext s
      have hposition : s.position.map (GradientFallback.mapText id) = s.position := by
        cases s.position <;> simp
      simp [ColorStop.mapText, hposition]
    rw [ofTokens?_respell hrespells]
    cases ofTokens? us <;> simp [mapText, hid]
  have hlex := Token.lex_source_append .origin h
  rw [List.append_nil, Token.lex_nil, List.append_nil] at hlex
  rw [parse?, htext, hlex, ← hunplaced, Token.same_settle, hunplaced]

end Gradient

namespace LegacyFilter

open GradientFallback.Gradient

/-- One more comment among the tokens makes no difference to the filter, unless it takes the place of
the whitespace behind the word `to` or is put into the color at one of the ends. -/
theorem ofText_insert {old new content : String} {front back : List Token} {c : Token}
    (hold : parse? old = ofTokens? (front ++ back))
    (hnew : parse? new = ofTokens? (front ++ c :: back))
    (hkind : c.kind = .comment content) (hstar : '*' ∈ c.text)
    (hto : ∀ g sides, parse? old = some g → g.heading = .corner sides true → ¬BehindTo front)
    (hcolor : ∀ g f i, parse? old = some g → ofText old = .ok f → InColor g.heading i front →
      i ≠ 0 ∧ i + 1 ≠ g.stops.length) :
    (ofText new).mapError GradientError.kind = (ofText old).mapError GradientError.kind := by
  have htrivia : c.isTrivia = true := by
    rw [Token.isTrivia, hkind]
    rfl
  have hblank : c.isWhitespace = false := by
    rw [Token.isWhitespace, hkind]
    rfl
  have hheading : ∀ g sides, ofTokens? (front ++ back) = some g → g.heading = .corner sides true →
      ¬BehindTo front := fun g sides hg => hto g sides (hold.trans hg)
  rcases ofTokens?_insert htrivia hblank hheading with hsame | ⟨g, i, s, hg, hi, hset, htext, hinside⟩
  · have hparse : parse? new = parse? old := by rw [hnew, hsame, hold]
    rw [ofText, ofText, hparse]
    cases parse? old with
    | none => rfl
    | some g => exact ofGradient_congr rfl rfl rfl rfl old new
  · have hs : (Color.parse s.color).toOption = none :=
      Color.parse_of_mem (htext.subset hstar)
    have hparse := hold.trans hg
    have hfilter : ofText old = ofGradient g old := by rw [ofText, hparse]
    rw [hfilter, ofText, hnew.trans hset]
    refine ofGradient_set hi hs old new ?_
    rintro ⟨f, hf⟩
    exact hcolor g f i hparse (hfilter.trans hf) hinside

/-- The text `w` between two others is one token of whitespace. -/
structure WhitespaceBetween (a w b : List Char) (before after : List Token) (blank : Token) :
    Prop where
  tokens : Token.lex .origin (unifyLineEnds (a ++ w ++ b)) = before ++ blank :: after
  kind : blank.kind = .whitespace
  front : unifyLineEnds a = Token.source before
  text : unifyLineEnds w = blank.text

/-- Every token of whitespace stands between two parts of the text. -/
theorem exists_whitespaceBetween {text : String} {before after : List Token} {blank : Token}
    (htokens : Token.lex .origin (unifyLineEnds text.toList) = before ++ blank :: after)
    (hkind : blank.kind = .whitespace) :
    ∃ a w b, text = String.ofList (a ++ w ++ b) ∧ WhitespaceBetween a w b before after blank := by
  have hsource : unifyLineEnds text.toList =
      Token.source before ++ (blank.text ++ Token.source after) := by
    rw [← Token.source_lex .origin (unifyLineEnds text.toList), htokens, Token.source_append,
      Token.source_cons]
  obtain ⟨a, rest, htext, ha, hrest⟩ := exists_cut_of_unifyLineEnds hsource
  obtain ⟨w, b, rfl, hw, -⟩ := exists_cut_of_unifyLineEnds hrest
  rw [← List.append_assoc] at htext
  exact ⟨a, w, b, by rw [← htext, String.ofList_toList], by rwa [htext] at htokens, hkind, ha, hw⟩

/-- A comment between two parts of a text. -/
def commented (a content b : List Char) : String :=
  String.ofList (a ++ Enclosure.commentSigns.wrap content ++ b)

/-- The token of a comment. -/
def commentToken (content : List Char) : Token :=
  ⟨.comment (String.ofList content), .origin, Enclosure.commentSigns.wrap content⟩

/-- Line ends do not meet over a comment. -/
theorem unifyLineEnds_commented (a content b : List Char) :
    unifyLineEnds (commented a content b).toList =
      unifyLineEnds a ++ (commentToken (unifyLineEnds content)).text ++ unifyLineEnds b := by
  have hslash (cs : List Char) : unifyLineEnds ('/' :: cs) = '/' :: unifyLineEnds cs :=
    if_neg fun hreturn => absurd hreturn.1 (by decide)
  have hstar (cs : List Char) : unifyLineEnds ('*' :: cs) = '*' :: unifyLineEnds cs :=
    if_neg fun hreturn => absurd hreturn.1 (by decide)
  have htext : (commented a content b).toList = a ++ '/' :: '*' :: (content ++ '*' :: '/' :: b) := by
    simp [commented, Enclosure.wrap, Enclosure.sign, Enclosure.lining]
  rw [htext, unifyLineEnds_append (by simp), hslash, hstar, unifyLineEnds_append (by simp), hstar,
    hslash]
  simp [commentToken, Enclosure.wrap, Enclosure.sign, Enclosure.lining]

namespace WhitespaceBetween

variable {a w b content : List Char} {before after : List Token} {blank : Token}
  (h : WhitespaceBetween a w b before after blank)

include h

theorem spelled : Token.Spelled (before ++ blank :: after) [] :=
  h.tokens ▸ Token.spelled_lex .origin _

theorem isTrivia_blank : blank.isTrivia = true := by
  rw [Token.isTrivia, h.kind]
  rfl

/-- The parts meet without a line end between them. -/
theorem unify_parts : unifyLineEnds (a ++ w) = Token.source (before ++ [blank]) ∧
    unifyLineEnds (w ++ b) = Token.source (blank :: after) ∧
    unifyLineEnds b = Token.source after := by
  have hall : unifyLineEnds (a ++ (w ++ b)) = unifyLineEnds a ++ (unifyLineEnds w ++
      Token.source after) := by
    rw [← List.append_assoc, ← Token.source_lex .origin (unifyLineEnds (a ++ w ++ b)), h.tokens,
      Token.source_append, Token.source_cons, h.front, h.text]
  have hmeet := not_meets_of_prefix (hall ▸ List.prefix_append _ _)
  have hback : unifyLineEnds (w ++ b) = unifyLineEnds w ++ Token.source after := by
    rwa [unifyLineEnds_append hmeet, List.append_cancel_left_eq] at hall
  have hmeet' := not_meets_of_prefix (hback ▸ List.prefix_append _ _)
  refine ⟨?_, by rw [hback, h.text, Token.source_cons], ?_⟩
  · rw [unifyLineEnds_append, h.front, h.text, Token.source_append, Token.source_cons,
      Token.source_nil, List.append_nil]
    rintro ⟨hlast, hhead⟩
    exact hmeet ⟨hlast, by rw [List.head?_append, hhead]; rfl⟩
  · rwa [unifyLineEnds_append hmeet', List.append_cancel_left_eq] at hback

/-- The tokens in front of the whitespace are read in front of a blank. -/
theorem exists_blank : ∃ e more, blank.text = e :: more ∧ isBlank e = true ∧
    Token.Spelled before (e :: (more ++ Token.source after)) := by
  obtain ⟨hbefore, hread, -⟩ := Token.spelled_append.1 h.spelled
  have hne := Token.text_ne_nil hread
  rw [h.kind, Scan.token_whitespace_iff hne] at hread
  obtain ⟨e, more, htext⟩ := List.exists_cons_of_ne_nil hne
  refine ⟨e, more, htext, hread.1 e (by simp [htext]), ?_⟩
  simpa [Token.source_cons, htext] using hbefore

/-- A comment can be read in front of the whitespace. -/
theorem spelled_before (hcontent : ¬['*', '/'] <:+: content)
    (hurl : ∀ t ∈ before.getLast?, ¬t.OpensUrl) (hlast : ∀ t ∈ before.getLast?, ¬t.GoesOn) :
    Token.Spelled (before ++ commentToken content :: blank :: after) [] := by
  obtain ⟨e, more, -, he, hbefore⟩ := h.exists_blank
  have hcomment : Token.Spelled (commentToken content :: blank :: after) [] :=
    Token.spelled_cons.2 ⟨Scan.token_wrap (e := .commentSigns) hcontent _,
      (Token.spelled_append.1 h.spelled).2⟩
  exact Token.spelled_append.2 ⟨hbefore.border he (.inr rfl) (fun _ => hlast) hurl, hcomment⟩

/-- A comment can be read behind the whitespace. -/
theorem spelled_behind (hcontent : ¬['*', '/'] <:+: content)
    (hurl : ∀ t ∈ before.getLast?, ¬t.OpensUrl) :
    Token.Spelled (before ++ [blank] ++ commentToken content :: after) [] := by
  obtain ⟨e, more, htext, he, hbefore⟩ := h.exists_blank
  obtain ⟨-, hread, hafter⟩ := Token.spelled_append.1 h.spelled
  have hcomment : Token.Spelled (commentToken content :: after) [] :=
    Token.spelled_cons.2 ⟨Scan.token_wrap (e := .commentSigns) hcontent _, hafter⟩
  have hblank : Token.Spelled (blank :: commentToken content :: after) [] := by
    refine Token.spelled_cons.2 ⟨?_, hcomment⟩
    have hne := Token.text_ne_nil hread
    rw [h.kind, Scan.token_whitespace_iff hne] at hread ⊢
    refine ⟨hread.1, fun f hf => ?_⟩
    obtain rfl : '/' = f := Option.some.inj hf
    decide
  rw [List.append_assoc]
  refine Token.spelled_append.2 ⟨?_, hblank⟩
  rw [List.singleton_append, Token.source_cons, htext]
  exact hbefore.border he (.inl rfl) (fun hne => absurd rfl hne) hurl

/-- Whitespace leads to nowhere else. -/
theorem inColor {g : Heading Float} {i : Nat} (hinside : InColor g i (before ++ [blank])) :
    InColor g i before := by
  obtain ⟨gap, t, inner, depth, hgap, ht, hsplit, hspot⟩ := hinside
  rcases List.eq_nil_or_concat inner with rfl | ⟨inner, u, rfl⟩
  · obtain ⟨-, hblank⟩ := List.append_inj' hsplit rfl
    rw [← (List.cons.inj hblank).1, h.isTrivia_blank] at ht
    exact absurd ht nofun
  · rw [List.concat_eq_append, ← List.cons_append, ← List.append_assoc] at hsplit
    obtain ⟨hbefore, hblank⟩ := List.append_inj' hsplit rfl
    have hu : Token.AllTrivia [u] := by
      rw [← hblank]
      exact List.forall_mem_singleton.2 h.isTrivia_blank
    refine ⟨gap, t, inner, depth, hgap, ht, hbefore, ?_⟩
    rw [List.concat_eq_append, Spot.behind?_append] at hspot
    rcases hinner : Spot.behind? ⟨0, 0⟩ inner with _ | p
    · rw [hinner] at hspot
      exact absurd hspot nofun
    · rwa [hinner, Option.bind_some, Spot.behind?_trivia hu] at hspot

theorem not_behindTo : ¬BehindTo (before ++ [blank]) := by
  rintro ⟨gap, t, line, -, -, hsplit, gap', u, -, hword, rfl⟩
  rw [← List.cons_append, ← List.append_assoc] at hsplit
  obtain ⟨-, hblank⟩ := List.append_inj' hsplit rfl
  rw [← (List.cons.inj hblank).1, h.kind] at hword
  exact absurd hword nofun

end WhitespaceBetween

/-- A comment directly in front of whitespace or directly behind it leaves the filter as it is, or
the kind of problem, with four exceptions: in the color at one of the ends, behind the parenthesis of
`url`, and in front of the whitespace also behind a lone backslash, behind a string that is broken
off and behind the word `to` of the heading. -/
theorem ofText_commented {a w b content : List Char} {before after : List Token} {blank : Token}
    (h : WhitespaceBetween a w b before after blank) (hcontent : ¬['*', '/'] <:+: content)
    (hurl : ∀ t ∈ before.getLast?, ¬t.OpensUrl)
    (hcolor : ∀ g f i, parse? (String.ofList (a ++ w ++ b)) = some g →
      ofText (String.ofList (a ++ w ++ b)) = .ok f → InColor g.heading i before →
        i ≠ 0 ∧ i + 1 ≠ g.stops.length) :
    (ofText (commented (a ++ w) content b)).mapError GradientError.kind =
        (ofText (String.ofList (a ++ w ++ b))).mapError GradientError.kind ∧
      ((∀ t ∈ before.getLast?, ¬t.GoesOn) →
        (∀ g sides, parse? (String.ofList (a ++ w ++ b)) = some g →
          g.heading = .corner sides true → ¬BehindTo before) →
        (ofText (commented a content (w ++ b))).mapError GradientError.kind =
          (ofText (String.ofList (a ++ w ++ b))).mapError GradientError.kind) := by
  have hstar : '*' ∈ (commentToken (unifyLineEnds content)).text := by
    simp [commentToken, Enclosure.wrap, Enclosure.lining]
  have hclosed : ¬['*', '/'] <:+: unifyLineEnds content := fun hends =>
    hcontent (infix_of_unifyLineEnds (by decide) hends)
  obtain ⟨hfront, hback, hrest⟩ := h.unify_parts
  have hold : parse? (String.ofList (a ++ w ++ b)) = ofTokens? (before ++ blank :: after) := by
    refine parse?_of_spelled h.spelled ?_
    rw [String.toList_ofList, ← h.tokens, Token.source_lex]
  constructor
  · have hold' : parse? (String.ofList (a ++ w ++ b)) = ofTokens? (before ++ [blank] ++ after) := by
      rw [hold, List.append_assoc, List.singleton_append]
    refine ofText_insert hold' ?_ rfl hstar ?_ ?_
    · refine parse?_of_spelled (h.spelled_behind hclosed hurl) ?_
      simp only [unifyLineEnds_commented, hfront, hrest, Token.source_append, Token.source_cons,
        List.append_assoc]
    · exact fun _ _ _ _ => h.not_behindTo
    · exact fun g f i hg hf hinside => hcolor g f i hg hf (h.inColor hinside)
  · intro hlast hto
    refine ofText_insert hold ?_ rfl hstar hto hcolor
    refine parse?_of_spelled (h.spelled_before hclosed hurl hlast) ?_
    simp only [unifyLineEnds_commented, h.front, hback, Token.source_append, Token.source_cons,
      List.append_assoc]

/-- A comment among the arguments of a color in the middle. -/
theorem ofText_commented_middle :
    (ofText (commented "linear-gradient(red,rgb(0, ".toList ")".toList "0,0),blue)".toList)).mapError
          GradientError.kind =
        (ofText "linear-gradient(red,rgb(0, 0,0),blue)").mapError GradientError.kind ∧
      (ofText (commented "linear-gradient(red,rgb(0,".toList ")".toList " 0,0),blue)".toList)).mapError
          GradientError.kind =
        (ofText "linear-gradient(red,rgb(0, 0,0),blue)").mapError GradientError.kind := by
  let tokens := Token.lex .origin "linear-gradient(red,rgb(0, 0,0),blue)".toList
  have hblank : WhitespaceBetween "linear-gradient(red,rgb(0,".toList [' '] "0,0),blue)".toList
      (tokens.take 6) (tokens.drop 7) ⟨.whitespace, ⟨1, 27, 26⟩, [' ']⟩ := ⟨rfl, rfl, rfl, rfl⟩
  have hcomma : ∀ t ∈ (tokens.take 6).getLast?, ⟨.comma, ⟨1, 26, 25⟩, [',']⟩ = t :=
    fun t ht => Option.some.inj ht
  have hurl : ∀ t ∈ (tokens.take 6).getLast?, ¬t.OpensUrl := by
    rintro t ht ⟨value, hkind, -⟩
    obtain rfl := hcomma t ht
    exact absurd hkind nofun
  have hends : ∀ t ∈ (tokens.take 6).getLast?, ¬t.GoesOn := by
    rintro t ht (htext | ⟨content, hkind⟩)
    · obtain rfl := hcomma t ht
      exact absurd htext (by decide)
    · obtain rfl := hcomma t ht
      exact absurd hkind nofun
  have hparse : ∀ g, Gradient.parse? "linear-gradient(red,rgb(0, 0,0),blue)" = some g →
      ⟨.none, [⟨"red", none⟩, ⟨"rgb(0, 0,0)", none⟩, ⟨"blue", none⟩]⟩ = g :=
    fun g hg => Option.some.inj hg
  have hcolor : ∀ g f i, Gradient.parse? "linear-gradient(red,rgb(0, 0,0),blue)" = some g →
      ofText "linear-gradient(red,rgb(0, 0,0),blue)" = .ok f →
        InColor g.heading i (tokens.take 6) → i ≠ 0 ∧ i + 1 ≠ g.stops.length := by
    rintro g f i hg - ⟨gap, t, inner, depth, hgap, -, hsplit, hspot⟩
    obtain rfl := hparse g hg
    cases gap with
    | nil =>
      obtain rfl : (tokens.take 6).tail = inner := congrArg List.tail hsplit
      have hone : (1 : Nat) = 0 + i := congrArg Spot.commas (Option.some.inj hspot)
      obtain rfl : i = 1 := by omega
      decide
    | cons u gap =>
      have hopens : (tokens.take 6).head? = some u := congrArg List.head? hsplit
      obtain rfl := Option.some.inj hopens
      exact absurd (hgap _ List.mem_cons_self) (by decide)
  have hcontent : ¬['*', '/'] <:+: ")".toList := by decide
  obtain ⟨hbehind, hbefore⟩ := ofText_commented hblank hcontent hurl hcolor
  refine ⟨hbehind, hbefore hends fun g sides hg hcorner => ?_⟩
  obtain rfl := hparse g hg
  exact absurd hcorner nofun

/-- With a comment between the whitespace `w` and what stands in front of it the filter is another one,
or there is another kind of problem. -/
def Notices (a w b content : String) : Prop :=
  (∃ before after blank, WhitespaceBetween a.toList w.toList b.toList before after blank) ∧
    ¬['*', '/'] <:+: content.toList ∧
    (ofText (commented a.toList content.toList (w.toList ++ b.toList))).mapError GradientError.kind ≠
      (ofText (String.ofList (a.toList ++ w.toList ++ b.toList))).mapError GradientError.kind

theorem mapError_ne {old new : String} (hold : (ofText old).toOption.isSome = true)
    (hnew : (ofText new).toOption.isSome = false) :
    (ofText new).mapError GradientError.kind ≠ (ofText old).mapError GradientError.kind := by
  intro hsame
  cases hof : ofText old with
  | error e =>
    rw [hof] at hold
    exact absurd hold nofun
  | ok f =>
    cases hof' : ofText new with
    | error e =>
      rw [hof, hof'] at hsame
      exact absurd hsame nofun
    | ok f' =>
      rw [hof'] at hnew
      exact absurd hnew nofun

/-- A filter that is lost shows that the comment is noticed. -/
theorem notices_of_lex {a w b content : String} (n : Nat) {blank : Token}
    (hat : (Token.lex .origin (unifyLineEnds (a.toList ++ w.toList ++ b.toList)))[n]? = some blank)
    (hkind : blank.kind = .whitespace)
    (hfront : unifyLineEnds a.toList = Token.source
      ((Token.lex .origin (unifyLineEnds (a.toList ++ w.toList ++ b.toList))).take n))
    (htext : unifyLineEnds w.toList = blank.text) (hcontent : ¬['*', '/'] <:+: content.toList)
    (hold : (ofText (String.ofList (a.toList ++ w.toList ++ b.toList))).toOption.isSome = true)
    (hnew : (ofText (commented a.toList content.toList
      (w.toList ++ b.toList))).toOption.isSome = false) : Notices a w b content := by
  obtain ⟨hn, hblank⟩ := List.getElem?_eq_some_iff.1 hat
  have htokens := (List.take_append_drop n _).symm.trans
    (congrArg _ (List.drop_eq_getElem_cons hn))
  rw [hblank] at htokens
  exact ⟨⟨_, _, blank, htokens, hkind, hfront, htext⟩, hcontent, mapError_ne hold hnew⟩

/-- A comment is noticed behind the word `to`, in a color at an end, behind a lone backslash, behind a
string that is broken off and behind the parenthesis of `url`, there also behind the whitespace. -/
theorem comment_noticed :
    Notices "linear-gradient(to" " " "right,red,blue)" "" ∧
      Notices "linear-gradient(rgb(255," " " "0, 0),blue)" "" ∧
      Notices "linear-gradient(red,rgb(\\" "\n" "),blue)" ")" ∧
      Notices "linear-gradient(red,rgb(\"" "\n" "),blue)" "\")" ∧
      Notices "linear-gradient(red,rgb(url(" " " "\")\")),blue)" "" ∧
      (ofText (commented "linear-gradient(red,rgb(url( ".toList [] "\")\")),blue)".toList)).mapError
          GradientError.kind ≠
        (ofText "linear-gradient(red,rgb(url( \")\")),blue)").mapError GradientError.kind := by
  refine ⟨?_, ?_, ?_, ?_, ?_, ?_⟩
  · exact notices_of_lex 2 rfl rfl rfl rfl (by decide) (by decide +kernel) (by decide +kernel)
  · exact notices_of_lex 4 rfl rfl rfl rfl (by decide) (by decide +kernel) (by decide +kernel)
  · exact notices_of_lex 5 rfl rfl rfl rfl (by decide) (by decide +kernel) (by decide +kernel)
  · exact notices_of_lex 5 rfl rfl rfl rfl (by decide) (by decide +kernel) (by decide +kernel)
  · exact notices_of_lex 5 rfl rfl rfl rfl (by decide) (by decide +kernel) (by decide +kernel)
  · exact mapError_ne (by decide +kernel) (by decide +kernel)

end LegacyFilter
end GradientFallback
