import GradientFallback.Proofs.Stylesheet.Printing
import GradientFallback.Proofs.Token.Respelling

/-! # Tidy layouts

A layout is tidy if it holds no signs that say nothing, every keyword and comment in it is written
as it is printed, and its tokens are read back from their texts.  Every layout that is read from a
text makes the same nodes as a tidy one, if the names of its at-rules are plain.
-/
namespace GradientFallback

mutual

/-- The names of the at-rules in a node. -/
def Node.keywords : Node → List String
  | .rule _ nodes _ => Node.keywordsOfAll nodes
  | .atRule head nodes _ => head.name :: Node.keywordsOfAll nodes
  | .statement head _ => [head.name]
  | _ => []

def Node.keywordsOfAll : List Node → List String
  | [] => []
  | n :: ns => n.keywords ++ Node.keywordsOfAll ns

end

/-- The names of the at-rules in a stylesheet. -/
def Stylesheet.keywords (s : Stylesheet) : List String := Node.keywordsOfAll s.nodes

namespace Token

/-- The tokens with a keyword or a comment at their front written anew. -/
def shownFirst : List Token → List Token
  | [] => []
  | t :: ts => t.shown :: ts

/-- The kinds of the first tokens are among those of the second. -/
def KindsAmong (ts us : List Token) : Prop := ∀ t ∈ ts, ∃ u ∈ us, u.kind = t.kind

theorem KindsAmong.allTrivia {ts us : List Token} (h : KindsAmong ts us) (hus : AllTrivia us) :
    AllTrivia ts := by
  intro t ht
  obtain ⟨u, hu, hkind⟩ := h t ht
  have htrivia := hus u hu
  rwa [isTrivia, hkind] at htrivia

theorem KindsAmong.eq_nil {ts : List Token} (h : KindsAmong ts []) : ts = [] := by
  cases ts with
  | nil => rfl
  | cons t ts =>
    obtain ⟨u, hu, -⟩ := h t List.mem_cons_self
    exact absurd hu List.not_mem_nil

theorem KindsAmong.append {ts us vs ws : List Token} (h : KindsAmong ts us) (h' : KindsAmong vs ws) :
    KindsAmong (ts ++ vs) (us ++ ws) := by
  intro t ht
  rcases List.mem_append.1 ht with ht | ht
  · obtain ⟨u, hu, hkind⟩ := h t ht
    exact ⟨u, List.mem_append_left ws hu, hkind⟩
  · obtain ⟨u, hu, hkind⟩ := h' t ht
    exact ⟨u, List.mem_append_right us hu, hkind⟩

theorem KindsAmong.refl (ts : List Token) : KindsAmong ts ts := fun t ht => ⟨t, ht, rfl⟩

theorem kindsAmong_shownFirst (ts : List Token) : KindsAmong (shownFirst ts) ts := by
  cases ts with
  | nil => exact nofun
  | cons t ts =>
    intro u hu
    rcases List.mem_cons.1 hu with rfl | hu
    · exact ⟨t, List.mem_cons_self, (shown_kind t).symm⟩
    · exact ⟨u, List.mem_cons_of_mem t hu, rfl⟩

theorem shown_of_startsPlain {t : Token} (h : t.kind.startsPlain = true) : t.shown = t := by
  unfold shown
  split
  · next hkind =>
    rw [hkind] at h
    exact absurd h nofun
  · next hkind =>
    rw [hkind] at h
    exact absurd h nofun
  · rfl

theorem shownFirst_of_startsPlain {ts : List Token} (h : (headKind ts).startsPlain = true) :
    shownFirst ts = ts := by
  cases ts with
  | nil => rfl
  | cons t ts => exact congrArg (· :: ts) (shown_of_startsPlain h)

theorem shownFirst_plain {ts : List Token} (h : ∀ t ∈ ts.take 1, t.Writable) :
    ∀ t ∈ (shownFirst ts).take 1, t.Plain := by
  cases ts with
  | nil => exact nofun
  | cons t ts =>
    intro u hu
    obtain rfl := List.mem_singleton.1 hu
    exact shown_plain (h t List.mem_cons_self)

theorem Spelled.shownFirst {ts : List Token} {x : List Char} (h : Spelled ts x)
    (hplain : ∀ t ∈ ts.take 1, t.Writable) : Spelled (shownFirst ts) x := by
  cases ts with
  | nil => trivial
  | cons t ts => exact h.shown (hplain t List.mem_cons_self)

end Token

namespace Layout

/-- The layout without signs that say nothing, and with all keywords and comments written anew. -/
def tidy : Layout → Layout
  | ending blanks => ending blanks
  | sign _ _ rest => rest.tidy
  | leaf blanks ts n rest => leaf blanks (Token.shownFirst ts) n rest.tidy
  | block blanks head o inner innerEnd rest =>
    block blanks (Token.shownFirst head) o inner.tidy innerEnd rest.tidy

@[simp] theorem tidy_nodes (c : Layout) : c.tidy.nodes = c.nodes ∧ c.tidy.last = c.last := by
  induction c with
  | ending blanks => exact ⟨rfl, rfl⟩
  | sign blanks t rest ih => exact ih
  | leaf blanks ts n rest ih => exact ⟨congrArg (n :: ·) ih.1, ih.2⟩
  | block blanks head o inner innerEnd rest ihInner ihRest =>
    refine ⟨?_, ihRest.2⟩
    simp only [tidy, Layout.nodes, after, ihInner.1, ihInner.2, ihRest.1]

theorem tidy_kept (c : Layout) : c.tidy.kept = c.tidy.tokens := by
  induction c with
  | ending blanks => rfl
  | sign blanks t rest ih => exact ih
  | leaf blanks ts n rest ih => simp only [tidy, kept, tokens, ih]
  | block blanks head o inner innerEnd rest ihInner ihRest =>
    simp only [tidy, kept, tokens, ihInner, ihRest]

theorem tidy_kindsAmong (c : Layout) : Token.KindsAmong c.tidy.tokens c.tokens := by
  induction c with
  | ending blanks => exact .refl blanks
  | sign blanks t rest ih =>
    intro u hu
    obtain ⟨v, hv, hkind⟩ := ih u hu
    exact ⟨v, by simp [tokens, hv], hkind⟩
  | leaf blanks ts n rest ih =>
    exact ((Token.KindsAmong.refl blanks).append (Token.kindsAmong_shownFirst ts)).append ih
  | block blanks head o inner innerEnd rest ihInner ihRest =>
    exact (((Token.KindsAmong.refl blanks).append (Token.kindsAmong_shownFirst head)).append
      ihInner).append ((Token.KindsAmong.refl [innerEnd]).append ihRest)

end Layout

/-! ## Tidying keeps layouts lawful -/

theorem DeclarationParts.Lawful.headKind {p : DeclarationParts} (hp : p.Lawful)
    (more : List Token) : (Token.headKind (p.tokens ++ more)).startsPlain = true := by
  obtain ⟨t, ts, hname⟩ := List.exists_cons_of_ne_nil hp.name_ne_nil
  have hplain := hp.starts
  rw [hname] at hplain
  simp only [DeclarationParts.tokens, hname, List.cons_append]
  exact hplain

theorem Leaf.shownFirst {nested : Bool} {before : String} {ts rest rest' : List Token} {n : Node}
    (h : Leaf nested before ts rest n) (hrest : Token.KindsAmong rest' rest) :
    Leaf nested before (Token.shownFirst ts) rest' n := by
  have hstarts {p : DeclarationParts} (hp : p.Lawful) (more : List Token) :
      Token.shownFirst (p.tokens ++ more) = p.tokens ++ more :=
    Token.shownFirst_of_startsPlain (hp.headKind more)
  cases h with
  | @comment t content _ kind =>
    rw [← Token.shown_location t]
    exact .comment (by rw [Token.shown_kind, kind])
  | @statement t semicolon name run _ kind passes closed ends =>
    rw [← Token.shown_location t]
    exact .statement (by rw [Token.shown_kind, kind]) passes closed ends
  | @lastStatement t name run kind passes closed =>
    obtain rfl := hrest.eq_nil
    rw [← Token.shown_location t]
    exact .lastStatement (by rw [Token.shown_kind, kind]) passes closed
  | @declaration p after _ semicolon inside lawful after_trivia after_nil ends =>
    rw [List.append_assoc, hstarts lawful, ← List.append_assoc]
    exact .declaration inside lawful after_trivia after_nil ends
  | @lastDeclaration p _ inside lawful rest_trivia rest_nil =>
    have hp := hstarts lawful []
    rw [List.append_nil] at hp
    rw [hp]
    refine .lastDeclaration inside lawful (hrest.allTrivia rest_trivia) fun hnil => ?_
    rw [rest_nil hnil] at hrest
    exact hrest.eq_nil

theorem Opens.shownFirst {before : String} {head : List Token} {o : Opening}
    (h : Opens before head o) : Opens before (Token.shownFirst head) o := by
  cases h with
  | @rule run brace ends starts passes closed =>
    rw [Token.shownFirst_of_startsPlain starts]
    exact .rule ends starts passes closed
  | @atRule t brace name run kind passes closed ends =>
    rw [← Token.shown_location t]
    exact .atRule (by rw [Token.shown_kind, kind]) passes closed ends

theorem Layout.tidy_lawful {nested : Bool} {c : Layout} (hc : c.Lawful nested) :
    c.tidy.Lawful nested := by
  induction c generalizing nested with
  | ending blanks => exact hc
  | sign blanks t rest ih => exact ih hc.2.2
  | leaf blanks ts n rest ih => exact ⟨hc.1, hc.2.1.shownFirst rest.tidy_kindsAmong, ih hc.2.2⟩
  | block blanks head o inner innerEnd rest ihInner ihRest =>
    exact ⟨hc.1, hc.2.1.shownFirst, ihInner hc.2.2.1, hc.2.2.2.1, ihRest hc.2.2.2.2⟩

/-! ## Tidying keeps tokens readable -/

/-- What may follow a block is its closing brace; nothing follows a stylesheet. -/
def Closes : Bool → List Char → Prop
  | true, after => after.head? = some '\x7d'
  | false, after => after = []

theorem Closes.spelled {nested : Bool} {ts : List Token} {x y : List Char}
    (hx : Closes nested x) (hy : Closes nested y) (h : Token.Spelled ts x) : Token.Spelled ts y := by
  cases nested with
  | false =>
    obtain rfl : x = [] := hx
    obtain rfl : y = [] := hy
    exact h
  | true =>
    obtain ⟨xs, rfl⟩ := List.head?_eq_some_iff.1 hx
    obtain ⟨ys, rfl⟩ := List.head?_eq_some_iff.1 hy
    exact h.alike (Token.alike_of_sign? (k := .rightBrace) rfl (by decide) xs ys)

theorem Closes.ne_nil {after : List Char} (h : Closes true after) : after ≠ [] := by
  obtain ⟨xs, rfl⟩ := List.head?_eq_some_iff.1 h
  exact nofun

theorem Leaf.headKind {nested : Bool} {before : String} {ts rest : List Token} {n : Node}
    (h : Leaf nested before ts rest n) :
    ∃ t us, ts = t :: us ∧ t.isWhitespace = false ∧
      ((∃ content, t.kind = .comment content ∧ us = [] ∧ n = .comment ⟨content, t.location, before⟩) ∨
        t.isTrivia = false) := by
  have hkeyword {t : Token} {name : String} (kind : t.kind = .atKeyword name) :
      t.isWhitespace = false ∧ t.isTrivia = false := by
    rw [Token.isWhitespace, Token.isTrivia, kind]
    exact ⟨rfl, rfl⟩
  have hparts {p : DeclarationParts} (hp : p.Lawful) (more : List Token) :
      ∃ t us, p.tokens ++ more = t :: us ∧ t.isWhitespace = false ∧ t.isTrivia = false := by
    have hplain := hp.headKind more
    rcases hts : p.tokens ++ more with _ | ⟨t, us⟩
    · simp [DeclarationParts.tokens] at hts
    · rw [hts] at hplain
      refine ⟨t, us, rfl, Item.startsPlain_not_isWhitespace hplain, ?_⟩
      simp only [Token.headKind] at hplain
      rcases hkind : t.kind <;> simp_all [Token.isTrivia, TokenKind.isTrivia, TokenKind.startsPlain]
  cases h with
  | @comment t content _ kind =>
    exact ⟨t, [], rfl, by rw [Token.isWhitespace, kind]; rfl, .inl ⟨content, kind, rfl, rfl⟩⟩
  | @statement t semicolon name run _ kind passes closed ends =>
    exact ⟨t, _, rfl, (hkeyword kind).1, .inr (hkeyword kind).2⟩
  | @lastStatement t name run kind passes closed =>
    exact ⟨t, _, rfl, (hkeyword kind).1, .inr (hkeyword kind).2⟩
  | @declaration p after _ semicolon inside lawful after_trivia after_nil ends =>
    obtain ⟨t, us, hts, hwhite, htrivia⟩ := hparts lawful (after ++ [semicolon])
    exact ⟨t, us, by rw [List.append_assoc, hts], hwhite, .inr htrivia⟩
  | @lastDeclaration p _ inside lawful rest_trivia rest_nil =>
    obtain ⟨t, us, hts, hwhite, htrivia⟩ := hparts lawful []
    exact ⟨t, us, by rw [← hts, List.append_nil], hwhite, .inr htrivia⟩

theorem writable_of_startsPlain {t : Token} (h : t.kind.startsPlain = true) : t.Writable := by
  intro name hkind
  rw [hkind] at h
  exact absurd h nofun

theorem Leaf.writable {nested : Bool} {before : String} {ts rest : List Token} {n : Node}
    (h : Leaf nested before ts rest n) (hnames : ∀ name ∈ n.keywords, Scan.IsPlainName name) :
    ∀ t ∈ ts.take 1, t.Writable := by
  have hkeyword {t : Token} {name : String} (kind : t.kind = .atKeyword name)
      (hname : Scan.IsPlainName name) : t.Writable := by
    intro other hother
    rw [kind, TokenKind.atKeyword.injEq] at hother
    rwa [← hother]
  have hparts {p : DeclarationParts} (hp : p.Lawful) (more : List Token) :
      ∀ t ∈ (p.tokens ++ more).take 1, t.Writable := by
    have hplain := hp.headKind more
    intro t ht
    rcases hts : p.tokens ++ more with _ | ⟨u, us⟩
    · rw [hts] at ht
      exact absurd ht List.not_mem_nil
    · rw [hts] at hplain ht
      obtain rfl := List.mem_singleton.1 ht
      exact writable_of_startsPlain hplain
  cases h with
  | comment kind =>
    intro t ht name hkind
    obtain rfl := List.mem_singleton.1 ht
    rw [kind] at hkind
    exact absurd hkind nofun
  | statement kind passes closed ends =>
    intro t ht
    obtain rfl := List.mem_singleton.1 ht
    exact hkeyword kind (hnames _ List.mem_cons_self)
  | lastStatement kind passes closed =>
    intro t ht
    obtain rfl := List.mem_singleton.1 ht
    exact hkeyword kind (hnames _ List.mem_cons_self)
  | @declaration p after _ semicolon inside lawful after_trivia after_nil ends =>
    rw [List.append_assoc]
    exact hparts lawful _
  | @lastDeclaration p _ inside lawful rest_trivia rest_nil =>
    rw [← List.append_nil p.tokens]
    exact hparts lawful []

theorem Opens.writable {before after : String} {head : List Token} {o : Opening} {nodes : List Node}
    (h : Opens before head o)
    (hnames : ∀ name ∈ (o.node nodes after).keywords, Scan.IsPlainName name) :
    (∀ t ∈ head.take 1, t.Writable) ∧
      ∀ name ∈ Node.keywordsOfAll nodes, Scan.IsPlainName name := by
  cases h with
  | @rule run brace ends starts passes closed =>
    refine ⟨fun t ht => ?_, hnames⟩
    rcases hhead : run ++ [brace] with _ | ⟨u, us⟩
    · simp at hhead
    · rw [hhead] at starts ht
      obtain rfl := List.mem_singleton.1 ht
      exact writable_of_startsPlain starts
  | @atRule t brace name run kind passes closed ends =>
    simp only [Opening.node, Node.keywords, List.mem_cons] at hnames
    refine ⟨fun u hu => ?_, fun name hname => hnames name (.inr hname)⟩
    obtain rfl := List.mem_singleton.1 hu
    intro other hother
    rw [kind, TokenKind.atKeyword.injEq] at hother
    exact hother ▸ hnames name (.inl rfl)

theorem Opens.headKind {before : String} {head : List Token} {o : Opening}
    (h : Opens before head o) :
    ∃ t us, head = t :: us ∧ t.isWhitespace = false ∧ ∃ u ∈ head, u.kind = .leftBrace := by
  cases h with
  | @rule run brace ends starts passes closed =>
    rcases hhead : run ++ [brace] with _ | ⟨t, us⟩
    · simp at hhead
    · rw [hhead] at starts
      refine ⟨t, us, rfl, Item.startsPlain_not_isWhitespace starts, brace, ?_, ends⟩
      rw [← hhead]
      exact List.mem_append_right run List.mem_cons_self
  | @atRule t brace name run kind passes closed ends =>
    exact ⟨t, _, rfl, by rw [Token.isWhitespace, kind]; rfl, brace, by simp, ends⟩

/-- Blanks stay blanks in front of a construct that is written anew. -/
theorem spelled_blanks {blanks ts us : List Token} {x y : List Char}
    (h : Token.Spelled (blanks ++ ts) x) (hblanks : Token.AllBlank blanks)
    (hus : Token.Spelled us y)
    (hstarts : ∃ u vs, us = u :: vs ∧ u.isWhitespace = false) : Token.Spelled (blanks ++ us) y := by
  obtain ⟨u, vs, rfl, hu⟩ := hstarts
  have hfront := (Token.spelled_append.1 h).1
  exact Token.spelled_append.2 ⟨hfront.blanks hblanks (Token.head_of_not_whitespace hus hu), hus⟩

/-- A block is read back if its parts are. -/
theorem spelled_block {front inner rest : List Token} {innerEnd : Token} {after : List Char}
    (hfront : Token.Firm front) (hinner : ∀ x, Closes true x → Token.Spelled inner x)
    (hbrace : innerEnd.text = ['\x7d']) (hend : innerEnd.kind = .rightBrace)
    (hrest : Token.Spelled rest after) :
    Token.Spelled (front ++ inner ++ innerEnd :: rest) after := by
  have hcloses : Closes true (Token.source (innerEnd :: rest) ++ after) := by
    rw [Token.source_cons, hbrace]
    rfl
  have hsign := Token.spelled_sign hbrace (by rw [hend]; rfl) (Token.source rest ++ after)
  exact Token.spelled_append.2 ⟨Token.spelled_append.2 ⟨hfront _, hinner _ hcloses⟩,
    ⟨by simpa using hsign.1, hrest⟩⟩

namespace Layout

/-- Trivia in front of a brace are tidy as they are. -/
theorem tidy_tokens_of_trivia {nested : Bool} {c : Layout} {after : List Char}
    (hc : c.Lawful nested) (htrivia : Token.AllTrivia c.tokens)
    (hspelled : Token.Spelled c.tokens after) (hafter : after ≠ []) :
    c.tidy.tokens = c.tokens := by
  induction c generalizing nested with
  | ending blanks => rfl
  | sign blanks t rest ih =>
    have ht := htrivia t (by simp [tokens])
    have hsign := hc.2.1
    rcases hkind : t.kind <;>
      simp_all [Token.isTrivia, TokenKind.isTrivia, TokenKind.isSign]
  | leaf blanks ts n rest ih =>
    obtain ⟨hfront, hrest⟩ := Token.spelled_append.1 hspelled
    obtain ⟨t, us, rfl, -, hfirst⟩ := hc.2.1.headKind
    rcases hfirst with ⟨content, hkind, rfl, -⟩ | hfirst
    · have ht := (Token.spelled_append.1 hfront).2.1
      simp only [tidy, tokens, Token.shownFirst]
      rw [Token.shown_of_comment (by simp [hafter]) ht hkind,
        ih hc.2.2 (fun u hu => htrivia u (by simp [tokens, hu])) hrest]
    · have ht := htrivia t (by simp [tokens])
      rw [hfirst] at ht
      exact absurd ht Bool.false_ne_true
  | block blanks head o inner innerEnd rest ihInner ihRest =>
    obtain ⟨t, us, -, -, u, hu, hkind⟩ := hc.2.1.headKind
    have hbrace := htrivia u (by simp [tokens, hu])
    rw [Token.isTrivia, hkind] at hbrace
    exact absurd hbrace Bool.false_ne_true

end Layout

/-- A construct is read back with its first token written anew, in front of the rest of the block
written anew. -/
theorem Leaf.spelled_shownFirst {nested : Bool} {before : String} {ts : List Token} {n : Node}
    {rest : Layout} {after : List Char} (h : Leaf nested before ts rest.tokens n)
    (hrest : rest.Lawful nested) (hafter : Closes nested after)
    (hplain : ∀ t ∈ ts.take 1, t.Writable) (hts : Token.Spelled (ts ++ rest.tokens) after) :
    Token.Spelled (Token.shownFirst ts) (Token.source rest.tidy.tokens ++ after) := by
  obtain ⟨hfront, hback⟩ := Token.spelled_append.1 hts
  have hshown := hfront.shownFirst hplain
  obtain ⟨more, hmore⟩ : ∃ more, rest.tokens = more := ⟨_, rfl⟩
  rw [hmore] at h
  cases h with
  | comment kind => exact Token.firm_comment hfront.1 kind _
  | @statement t semicolon name run _ kind passes closed ends =>
    have hsign : semicolon.kind.sign? = some ';' := by rw [ends]; rfl
    exact Token.Spelled.firm (t.shown :: run) hshown hsign (by decide) _
  | lastStatement kind passes closed =>
    have hnil := rest.tidy_kindsAmong
    rw [hmore] at hnil hshown
    rwa [hnil.eq_nil]
  | @declaration p trivia _ semicolon inside lawful after_trivia after_nil ends =>
    have hsign : semicolon.kind.sign? = some ';' := by rw [ends]; rfl
    have hsame := Token.shownFirst_of_startsPlain (lawful.headKind (trivia ++ [semicolon]))
    rw [← List.append_assoc] at hsame
    rw [hsame]
    exact Token.Spelled.firm _ hfront hsign (by decide) _
  | lastDeclaration inside lawful rest_trivia rest_nil =>
    subst inside
    rwa [Layout.tidy_tokens_of_trivia hrest (by rwa [hmore]) hback hafter.ne_nil]

theorem Opens.spelled_shownFirst {before : String} {head : List Token} {o : Opening}
    {x : List Char} (h : Opens before head o) (hhead : Token.Spelled head x)
    (hplain : ∀ t ∈ head.take 1, t.Writable) : Token.Firm (Token.shownFirst head) := by
  have hshown := hhead.shownFirst hplain
  cases h with
  | @rule run brace ends starts passes closed =>
    rw [Token.shownFirst_of_startsPlain starts] at hshown ⊢
    exact Token.Spelled.firm run hshown (c := '\x7b') (by rw [ends]; rfl) (by decide)
  | @atRule t brace name run kind passes closed ends =>
    exact Token.Spelled.firm (t.shown :: run) (c := '\x7b') hshown (by rw [ends]; rfl) (by decide)

/-- The start of a block is read back behind its blanks, whatever the block holds. -/
theorem Opens.firm_shownFirst {before : String} {blanks head : List Token} {o : Opening}
    {x : List Char} (h : Opens before head o) (hspelled : Token.Spelled (blanks ++ head) x)
    (hblanks : Token.AllBlank blanks) (hplain : ∀ t ∈ head.take 1, t.Writable) :
    Token.Firm (blanks ++ Token.shownFirst head) := by
  have hshown := h.spelled_shownFirst (Token.spelled_append.1 hspelled).2 hplain
  obtain ⟨t, us, rfl, hwhite, -⟩ := h.headKind
  intro after
  refine spelled_blanks hspelled hblanks (hshown after) ⟨t.shown, us, rfl, ?_⟩
  rwa [Token.isWhitespace, Token.shown_kind]

namespace Layout

/-- If the names of its at-rules are plain, a layout is read back from the text of the tidy one. -/
theorem tidy_spelled {nested : Bool} {c : Layout} {after : List Char} (hc : c.Lawful nested)
    (hafter : Closes nested after) (hspelled : Token.Spelled c.tokens after)
    (hnames : ∀ name ∈ Node.keywordsOfAll c.nodes, Scan.IsPlainName name) :
    Token.Spelled c.tidy.tokens after ∧ ∀ t ∈ c.tidy.starts, t.Plain := by
  induction c generalizing nested after with
  | ending blanks => exact ⟨hspelled, nofun⟩
  | sign blanks t rest ih =>
    have hrest := (Token.spelled_append.1 hspelled).2.2
    exact ih hc.2.2 hafter hrest hnames
  | leaf blanks ts n rest ih =>
    obtain ⟨hblanks, hleaf, hlawful⟩ := hc
    simp only [Layout.nodes, Node.keywordsOfAll, List.mem_append] at hnames
    have hfirst := hleaf.writable fun name hname => hnames name (.inl hname)
    have hparts : Token.Spelled (blanks ++ (ts ++ rest.tokens)) after := by
      rwa [← List.append_assoc]
    have hts := (Token.spelled_append.1 hparts).2
    have hrest := ih hlawful hafter (Token.spelled_append.1 hts).2 fun name hname =>
      hnames name (.inr hname)
    obtain ⟨t, us, rfl, hwhite, -⟩ := hleaf.headKind
    have hshown := hleaf.spelled_shownFirst hlawful hafter hfirst hts
    refine ⟨Token.spelled_append.2 ⟨spelled_blanks (Token.spelled_append.1 hspelled).1 hblanks
      hshown ⟨t.shown, us, rfl, ?_⟩, hrest.1⟩, ?_⟩
    · rwa [Token.isWhitespace, Token.shown_kind]
    · intro u hu
      simp only [tidy, starts, List.mem_append] at hu
      rcases hu with hu | hu
      · exact Token.shownFirst_plain hfirst u hu
      · exact hrest.2 u hu
  | block blanks head o inner innerEnd rest ihInner ihRest =>
    obtain ⟨hblanks, hopens, hinner, hend, hrest⟩ := hc
    simp only [Layout.nodes, Node.keywordsOfAll, List.mem_append] at hnames
    obtain ⟨hfirst, hinnerNames⟩ := hopens.writable fun name hname => hnames name (.inl hname)
    obtain ⟨hfront, hback⟩ := Token.spelled_append.1 hspelled
    obtain ⟨hhead, hinside⟩ := Token.spelled_append.1 hfront
    have hbrace := Token.text_of_sign (hback.written innerEnd List.mem_cons_self)
      (c := '\x7d') (by rw [hend]; rfl)
    have hcloses (us : List Token) : Closes true (Token.source (innerEnd :: us) ++ after) := by
      rw [Token.source_cons, hbrace]
      rfl
    have hin := ihInner hinner (hcloses rest.tokens) hinside hinnerNames
    have hout := ihRest hrest hafter hback.2 fun name hname => hnames name (.inr hname)
    have hfirm := hopens.firm_shownFirst hhead hblanks hfirst
    refine ⟨spelled_block hfirm (fun x hx => (hcloses rest.tokens).spelled hx hin.1) hbrace hend
      hout.1, ?_⟩
    intro u hu
    simp only [tidy, starts, List.mem_append] at hu
    rcases hu with (hu | hu) | hu
    · exact Token.shownFirst_plain hfirst u hu
    · exact hin.2 u hu
    · exact hout.2 u hu

end Layout

/-- What can be said of a layout whose text is read back as it is laid out. -/
structure Layout.Tidy (nested : Bool) (c : Layout) : Prop where
  lawful : c.Lawful nested
  kept : c.kept = c.tokens
  plain : ∀ t ∈ c.starts, t.Plain
  spelled : ∀ after, Closes nested after → Token.Spelled c.tokens after

theorem Layout.tidy_tidy {nested : Bool} {c : Layout} {after : List Char} (hc : c.Lawful nested)
    (hafter : Closes nested after) (hspelled : Token.Spelled c.tokens after)
    (hnames : ∀ name ∈ Node.keywordsOfAll c.nodes, Scan.IsPlainName name) : c.tidy.Tidy nested where
  lawful := tidy_lawful hc
  kept := tidy_kept c
  plain := (tidy_spelled hc hafter hspelled hnames).2
  spelled _ hother := hafter.spelled hother (tidy_spelled hc hafter hspelled hnames).1

end GradientFallback
