import GradientFallback.Proofs.Stylesheet.Patching
import GradientFallback.Proofs.Stylesheet.Reparsing
import GradientFallback.Proofs.Token.Lasting

/-! # Reading strictly what was read leniently

What a lenient reader passes is not written, and blocks that the text leaves open are closed.  So the
text that is written is read strictly as the same tree, unless a node that no semicolon ends swallows
what is written behind it.
-/
namespace GradientFallback

namespace Token

/-- Whether a closing brace behind the text is a token of its own, outside of all parentheses. -/
def canClose (cs : List Char) : Bool :=
  decide (depthBehind 0 (lex .origin cs) = 0 ∧ lex .origin (cs ++ ['\x7d']) =
    lex .origin cs ++ [⟨.rightBrace, Location.origin.advance cs, ['\x7d']⟩])

end Token

/-- Whether no semicolon ends a declaration or an at-rule without a block. -/
def Node.isUnended : Node → Bool
  | .statement _ semicolon => !semicolon
  | .declaration d => !d.semicolon
  | _ => false

/-- Whether what is written behind the node leaves it as it is: in a block the nodes `others`, the
blanks `after` and a closing brace, outside of all blocks nothing. -/
def Node.staysIn (nested : Bool) (after : String) (others : List Node) (n : Node) : Bool :=
  !n.isUnended ||
    if nested then Token.canClose (n.print ++ Node.printAll others ++ after).toList
    else others.isEmpty && after.isEmpty

mutual

/-- Whether all nodes inside the node stay as they are. -/
def Node.isClosable : Node → Bool
  | .rule _ nodes after => Node.isClosableAll true after nodes
  | .atRule _ nodes after => Node.isClosableAll true after nodes
  | _ => true

def Node.isClosableAll (nested : Bool) (after : String) : List Node → Bool
  | [] => true
  | n :: ns => n.isClosable && n.staysIn nested after ns && Node.isClosableAll nested after ns

end

/-- Whether every node can be told from what is written behind it. -/
def Stylesheet.isClosable (s : Stylesheet) : Bool := Node.isClosableAll false s.after s.nodes

@[simp] theorem Opening.isClosable_node (o : Opening) (nodes : List Node) (after : String) :
    (o.node nodes after).isClosable = Node.isClosableAll true after nodes := by
  cases o <;> rfl

theorem Closes.head_not_blank {nested : Bool} {x : List Char} (h : Closes nested x) :
    ∀ c ∈ x.head?, isBlank c = false := by
  intro c hc
  cases nested with
  | false =>
    obtain rfl : x = [] := h
    cases hc
  | true =>
    obtain rfl : c = '\x7d' := Option.some.inj (hc.symm.trans h)
    rfl

namespace Token

theorem spelled_settle {start : Location} {ts : List Token} {x : List Char} :
    Spelled (settle start ts) x ↔ Spelled ts x := by
  induction ts generalizing start with
  | nil => exact Iff.rfl
  | cons t ts ih =>
    rw [settle, spelled_cons, spelled_cons, ih, (same_settle _ ts).source]

/-- Behind tokens that can be closed a closing brace is read as such. -/
theorem Spelled.close {ts : List Token} (h : Spelled ts []) (hclose : canClose (source ts) = true) :
    depthBehind 0 ts = 0 ∧ Spelled ts ['\x7d'] := by
  have hlex : lex .origin (source ts) = settle .origin ts := by
    have hread := lex_source_append .origin h
    rwa [List.append_nil, lex_nil, List.append_nil] at hread
  obtain ⟨hdepth, hbrace⟩ := of_decide_eq_true hclose
  rw [hlex, (same_settle .origin ts).depthBehind] at hdepth
  rw [hlex] at hbrace
  have hspelled := spelled_lex .origin (source ts ++ ['\x7d'])
  rw [hbrace] at hspelled
  exact ⟨hdepth, spelled_settle.1 (spelled_append.1 hspelled).1⟩

theorem depthBehind_shownFirst (depth : Nat) (ts : List Token) :
    depthBehind depth (shownFirst ts) = depthBehind depth ts := by
  cases ts with
  | nil => rfl
  | cons t ts => rw [shownFirst, depthBehind_cons, depthBehind_cons, shown_kind]

/-- A comment starts in the same way when it is written anew. -/
theorem alike_shown {t : Token} {content : String} {x : List Char}
    (h : Scan.token (t.text ++ x) = some (t.kind, t.text.length)) (hkind : t.kind = .comment content)
    (y : List Char) : Scan.Alike (t.text ++ x) (t.shown.text ++ y) := by
  have hread := h
  rw [hkind] at hread
  obtain ⟨ds, hds, -⟩ := (Scan.reading_of_token hread).of_comment
  refine ⟨'/', '*' :: ds, '*' :: (content.toList ++ ['*', '/'] ++ y), rfl, fun _ => ⟨rfl, rfl⟩,
    hds, ?_⟩
  unfold shown
  rw [hkind]
  rfl

/-- Behind blanks a construct is read back with its first token written anew. -/
theorem Spelled.shownFirst_blanks {ws ts us : List Token} {t : Token} {x : List Char}
    (h : Spelled (ws ++ ts) x) (hws : AllBlank ws) (hts : ts = t :: us)
    (hwhite : t.isWhitespace = false) (hplain : t.Writable) :
    Spelled (ws ++ Token.shownFirst ts) x := by
  subst hts
  have hshown := (spelled_append.1 h).2.shown hplain
  refine spelled_blanks h hws hshown ⟨t.shown, us, rfl, ?_⟩
  rwa [isWhitespace, shown_kind]

theorem Excerpt.not_mem_shownFirst {ws ts : List Token} {x : List Char} (h : Excerpt (ws ++ ts) x)
    (hplain : ∀ t ∈ ts.take 1, t.Writable) : '\r' ∉ source (ws ++ shownFirst ts) := by
  have hreturn := h.no_return
  rw [source_append, List.append_assoc, List.mem_append, not_or] at hreturn
  rw [source_append, List.mem_append, not_or]
  exact ⟨hreturn.1, Token.not_mem_shownFirst (spelled_append.1 h.spelled).2 hplain hreturn.2⟩

end Token

/-! ## Constructs -/

/-- A construct that stands for itself is a comment or ends with a semicolon. -/
theorem Leaf.end_of_fits {nested : Bool} {before : String} {ts : List Token} {n : Node}
    (fits : ∀ rest, Leaf nested before ts rest n) :
    (∃ t content, ts = [t] ∧ t.kind = .comment content) ∨
      ∃ front semicolon, front ≠ [] ∧ ts = front ++ [semicolon] ∧ semicolon.kind = .semicolon := by
  cases fits [Item.missingBrace] with
  | comment kind => exact .inl ⟨_, _, rfl, kind⟩
  | statement kind passes closed ends => exact .inr ⟨_, _, List.cons_ne_nil _ _, rfl, ends⟩
  | declaration inside lawful after_trivia after_nil ends =>
    exact .inr ⟨_, _, by simp [DeclarationParts.tokens], rfl, ends⟩
  | lastDeclaration inside lawful rest_trivia =>
    exact absurd (rest_trivia _ List.mem_cons_self) Bool.false_ne_true

/-- It is read back in front of every text. -/
theorem Leaf.firm_shownFirst {nested : Bool} {before : String} {ws ts : List Token} {n : Node}
    {x : List Char} (fits : ∀ rest, Leaf nested before ts rest n)
    (hspelled : Token.Spelled (ws ++ ts) x) (hws : Token.AllBlank ws)
    (hplain : ∀ t ∈ ts.take 1, t.Writable) : Token.Firm (ws ++ Token.shownFirst ts) := by
  obtain ⟨t, us, hts, hwhite, -⟩ := (fits []).headKind
  have ht : t.Writable := hplain t (by simp [hts])
  rcases Leaf.end_of_fits fits with ⟨t, content, rfl, hkind⟩ | ⟨front, semicolon, hfront, rfl, hkind⟩
  · intro after
    have hshown := Token.firm_comment (Token.spelled_append.1 hspelled).2.1 hkind after
    refine spelled_blanks hspelled hws hshown ⟨t.shown, [], rfl, ?_⟩
    rw [Token.isWhitespace, Token.shown_kind, hkind]
    rfl
  · have hshown := hspelled.shownFirst_blanks hws hts hwhite ht
    obtain ⟨u, front, rfl⟩ := List.exists_cons_of_ne_nil hfront
    have hassoc : ws ++ Token.shownFirst (u :: front ++ [semicolon]) =
        ws ++ u.shown :: front ++ [semicolon] := by simp [Token.shownFirst]
    rw [hassoc] at hshown ⊢
    exact hshown.firm _ (c := ';') (by rw [hkind]; rfl) (by decide)

namespace Unended

variable {nested : Bool} {before : String} {ts after : List Token} {n : Node}

theorem first (h : Unended nested before ts after n) :
    ∃ t us, ts = t :: us ∧ t.isTrivia = false ∧ t.isWhitespace = false := by
  cases h with
  | @statement t name run kind passes =>
    exact ⟨t, run, rfl, (Item.atKeyword_stays kind).1, by rw [Token.isWhitespace, kind]; rfl⟩
  | @declaration p _ inside starts =>
    rcases hts : p.tokens with _ | ⟨t, us⟩
    · simp [DeclarationParts.tokens] at hts
    · rw [hts] at starts
      exact ⟨t, us, rfl, (Item.startsPlain_stays starts).1, Item.startsPlain_not_isWhitespace starts⟩

theorem writable (h : Unended nested before ts after n)
    (hnames : ∀ name ∈ n.keywords, Scan.IsPlainName name) : ∀ t ∈ ts.take 1, t.Writable := by
  cases h with
  | @statement t name run kind passes =>
    intro u hu other hother
    obtain rfl := List.mem_singleton.1 hu
    rw [kind, TokenKind.atKeyword.injEq] at hother
    exact hother ▸ hnames name List.mem_cons_self
  | @declaration p _ inside starts =>
    intro u hu
    rcases hts : p.tokens with _ | ⟨t, us⟩
    · simp [hts] at hu
    · rw [hts] at starts hu
      obtain rfl := List.mem_singleton.1 hu
      exact writable_of_startsPlain starts

/-- It is written with its tokens. -/
theorem print (h : Unended nested before ts after n) :
    n.print.toList = before.toList ++ Token.source (Token.shownFirst ts) := by
  cases h with
  | @statement t name run kind passes =>
    have hshown : t.shown.text = '@' :: name.toList := by
      unfold Token.shown
      rw [kind]
    rw [Node.print, String.toList_append, Item.print_ofRun, Token.shownFirst, Token.source_cons,
      hshown]
    simp
  | @declaration p _ inside starts =>
    rw [Node.print, Item.print_declaration, Token.shownFirst_of_startsPlain starts]
    simp

theorem isUnended (h : Unended nested before ts after n) : n.isUnended = true := by
  cases h <;> rfl

end Unended

namespace Layout

/-- Trivia behind a construct are read back with all comments closed. -/
theorem Patched.spelled_tidy {nested : Bool} {x : List Char} {c : Layout} (h : c.Patched nested x)
    (hc : Token.AllTrivia c.tokens) {front : List Token}
    (hspelled : Token.Spelled (front ++ c.tokens) x) :
    Token.Spelled (front ++ c.tidy.tokens) x := by
  induction h generalizing front with
  | ending => exact hspelled
  | @leaf nested x y ws ts n rest blanks fits excerpt others ih =>
    obtain ⟨t, us, rfl, -, ⟨content, hkind, rfl, -⟩ | htrivia⟩ := (fits []).headKind
    · rw [tokens, ← List.append_assoc, ← List.append_assoc] at hspelled
      rw [tidy, tokens, ← List.append_assoc, ← List.append_assoc]
      obtain ⟨hfront, hback⟩ := Token.spelled_append.1 hspelled
      obtain ⟨hws, hcomment⟩ := Token.spelled_append.1 hfront
      have hrest : Token.Spelled ([] ++ rest.tidy.tokens) x :=
        ih (fun u hu => hc u (by simp [tokens, hu])) hback
      have hshown := Token.firm_comment hcomment.1 hkind (Token.source rest.tidy.tokens ++ x)
      refine Token.spelled_append.2 ⟨Token.spelled_append.2 ⟨hws.alike ?_, hshown⟩, hrest⟩
      simpa [Token.shownFirst] using
        Token.alike_shown hcomment.1 hkind (Token.source rest.tidy.tokens ++ x)
    · have ht := hc t (by simp [tokens])
      rw [htrivia] at ht
      exact absurd ht Bool.false_ne_true
  | @unended x ws ts n rest blanks unended excerpt closed others ih =>
    obtain ⟨t, us, rfl, htrivia, -⟩ := unended.first
    have ht := hc t (by simp [tokens])
    rw [htrivia] at ht
    exact absurd ht Bool.false_ne_true
  | @outside x y ws ts n rest blanks unended excerpt stops others ih =>
    obtain ⟨t, us, rfl, htrivia, -⟩ := unended.first
    have ht := hc t (by simp [tokens])
    rw [htrivia] at ht
    exact absurd ht Bool.false_ne_true
  | @block nested x y z ws head o inner rest innerEnd blanks opens =>
    obtain ⟨t, us, -, -, u, hu, hkind⟩ := opens.headKind
    have hbrace := hc u (by simp [tokens, hu])
    rw [Token.isTrivia, hkind] at hbrace
    exact absurd hbrace Bool.false_ne_true

/-- A node that no semicolon ends is written with its tokens, and so is what stands behind it. -/
theorem print_unended {nested : Bool} {ws ts : List Token} {n : Node} {rest : Layout}
    (unended : Unended nested (Item.sourceText ws) ts rest.tokens n) (hrest : rest.tidy.Tidy nested) :
    (n.print ++ Node.printAll rest.nodes ++ rest.after).toList =
      Token.source (ws ++ Token.shownFirst ts ++ rest.tidy.tokens) := by
  have hprint := hrest.print
  rw [rest.tidy_nodes.1, after, rest.tidy_nodes.2, ← after] at hprint
  rw [String.toList_append, String.toList_append, List.append_assoc, hprint, unended.print,
    Item.sourceText, String.toList_ofList, Token.source_append, Token.source_append]

/-- The end of a block ends it, if it stays as it is. -/
theorem Patched.closed_unended {x : List Char} {ws ts : List Token} {n : Node} {rest : Layout}
    (others : rest.Patched true x) (unended : Unended true (Item.sourceText ws) ts rest.tokens n)
    (hws : Token.AllBlank ws) (hplain : ∀ t ∈ ts.take 1, t.Writable)
    (hspelled : Token.Spelled (ws ++ ts ++ rest.tokens) x) (hstops : Stops x)
    (hclosed : x ≠ [] → Token.depthBehind 0 ts = 0) (hrest : rest.tidy.Tidy true)
    (hstays : n.staysIn true rest.after rest.nodes = true) :
    Token.depthBehind 0 ts = 0 ∧
      Token.Spelled (ws ++ Token.shownFirst ts ++ rest.tidy.tokens) ['\x7d'] := by
  have hshown : Token.Spelled (ws ++ Token.shownFirst ts ++ rest.tokens) x := by
    obtain ⟨t, us, rfl, -, hwhite⟩ := unended.first
    rw [List.append_assoc] at hspelled ⊢
    exact hspelled.shownFirst_blanks hws (List.cons_append ..) hwhite (hplain t List.mem_cons_self)
  have htidy := others.spelled_tidy unended.after_trivia hshown
  rcases hstops with rfl | hx
  · simp only [Node.staysIn, unended.isUnended, Bool.not_true, Bool.false_or, if_true] at hstays
    rw [print_unended unended hrest] at hstays
    obtain ⟨hdepth, hbrace⟩ := htidy.close hstays
    refine ⟨?_, hbrace⟩
    have htrivia := rest.tidy_kindsAmong.allTrivia unended.after_trivia
    rwa [Token.depthBehind_append, Token.depthBehind_append,
      Token.depthBehind_trivia hws.allTrivia, Token.depthBehind_shownFirst,
      Token.depthBehind_trivia htrivia] at hdepth
  · exact ⟨hclosed hx.ne_nil, hx.spelled rfl htidy⟩

/-- Outside of all blocks nothing is written behind it, if it stays as it is. -/
theorem tokens_of_staysIn {n : Node} {rest : Layout} (hrest : rest.tidy.Tidy false)
    (hn : n.isUnended = true) (hstays : n.staysIn false rest.after rest.nodes = true) :
    rest.tidy.tokens = [] := by
  simp only [Node.staysIn, hn, Bool.not_true, Bool.false_or, Bool.false_eq_true, if_false,
    Bool.and_eq_true, List.isEmpty_iff, String.isEmpty_iff] at hstays
  have hprint := hrest.print
  rw [rest.tidy_nodes.1, after, rest.tidy_nodes.2, ← after, hstays.1, hstays.2] at hprint
  exact Token.source_eq_nil (hrest.spelled [] rfl) hprint.symm

/-- It is tidied as the last node of its block. -/
theorem tidy_unended {nested : Bool} {ws ts more : List Token} {n : Node} {rest : Layout}
    (unended : Unended nested (Item.sourceText ws) ts more n) (hws : Token.AllBlank ws)
    (hplain : ∀ t ∈ ts.take 1, t.Writable) (hclosed : nested = true → Token.depthBehind 0 ts = 0)
    (hmore : Token.KindsAmong rest.tidy.tokens more)
    (hspelled : ∀ after, Closes nested after →
      Token.Spelled (ws ++ Token.shownFirst ts) (Token.source rest.tidy.tokens ++ after))
    (hrest : rest.tidy.Tidy nested) : (leaf ws ts n rest).tidy.Tidy nested :=
  Tidy.leaf_iff.2 ⟨hws, (unended.leaf hclosed).shownFirst hmore, Token.shownFirst_plain hplain,
    hspelled, hrest⟩

/-- A layout of excerpts is written without carriage returns. -/
theorem Patched.not_mem_tidy {nested : Bool} {x : List Char} {c : Layout} (h : c.Patched nested x)
    (hnames : ∀ name ∈ Node.keywordsOfAll c.nodes, Scan.IsPlainName name) :
    '\r' ∉ Token.source c.tidy.tokens := by
  induction h with
  | ending blanks excerpt => exact fun hmem => excerpt.no_return (List.mem_append_left _ hmem)
  | @leaf nested x y ws ts n rest blanks fits excerpt others ih =>
    simp only [Layout.nodes, Node.keywordsOfAll, List.mem_append] at hnames
    have hfirst := (fits []).writable fun name hname => hnames name (.inl hname)
    rw [tidy, tokens, Token.source_append, List.mem_append, not_or]
    exact ⟨excerpt.not_mem_shownFirst hfirst, ih fun name hname => hnames name (.inr hname)⟩
  | @unended x ws ts n rest blanks unended excerpt closed others ih =>
    simp only [Layout.nodes, Node.keywordsOfAll, List.mem_append] at hnames
    have hfirst := unended.writable fun name hname => hnames name (.inl hname)
    rw [tidy, tokens, Token.source_append, List.mem_append, not_or]
    exact ⟨(Token.excerpt_append.1 excerpt).1.not_mem_shownFirst hfirst,
      ih fun name hname => hnames name (.inr hname)⟩
  | @outside x y ws ts n rest blanks unended excerpt stops others ih =>
    simp only [Layout.nodes, Node.keywordsOfAll, List.mem_append] at hnames
    have hfirst := unended.writable fun name hname => hnames name (.inl hname)
    rw [tidy, tokens, Token.source_append, List.mem_append, not_or]
    exact ⟨excerpt.not_mem_shownFirst hfirst, ih fun name hname => hnames name (.inr hname)⟩
  | @block nested x y z ws head o inner rest innerEnd blanks opens excerpt inside stops kind text
      others ihInner ihRest =>
    simp only [Layout.nodes, Node.keywordsOfAll, List.mem_append] at hnames
    obtain ⟨hfirst, hinner⟩ := opens.writable fun name hname => hnames name (.inl hname)
    simp only [tidy, tokens, Token.source_append, Token.source_cons, text, List.mem_append, not_or]
    have hhead := excerpt.not_mem_shownFirst hfirst
    rw [Token.source_append, List.mem_append, not_or] at hhead
    exact ⟨⟨hhead, ihInner hinner⟩, by decide, ihRest fun name hname => hnames name (.inr hname)⟩

/-- A layout of excerpts in front of the end of its block is tidied like one that a strict reader
takes, if every node stays as it is. -/
theorem Patched.tidy_tidy {nested : Bool} {x : List Char} {c : Layout} (h : c.Patched nested x)
    (hstops : Stops x) (hnames : ∀ name ∈ Node.keywordsOfAll c.nodes, Scan.IsPlainName name)
    (hclosable : Node.isClosableAll nested c.after c.nodes = true) : c.tidy.Tidy nested := by
  induction h with
  | @ending nested x ws blanks excerpt =>
    refine ⟨blanks, rfl, List.forall_mem_nil _, fun after hafter => ?_⟩
    exact excerpt.spelled.blanks blanks hafter.head_not_blank
  | @leaf nested x y ws ts n rest blanks fits excerpt others ih =>
    simp only [Layout.nodes, Node.keywordsOfAll, List.mem_append] at hnames
    simp only [Layout.nodes, Node.isClosableAll, Bool.and_eq_true] at hclosable
    have hfirst := (fits []).writable fun name hname => hnames name (.inl hname)
    have hrest := ih hstops (fun name hname => hnames name (.inr hname)) hclosable.2
    have hfirm := Leaf.firm_shownFirst fits excerpt.spelled blanks hfirst
    exact Tidy.leaf_iff.2 ⟨blanks, (fits rest.tidy.tokens).shownFirst (.refl _),
      Token.shownFirst_plain hfirst, fun after _ => hfirm _, hrest⟩
  | @unended x ws ts n rest blanks unended excerpt closed others ih =>
    simp only [Layout.nodes, Node.keywordsOfAll, List.mem_append] at hnames
    simp only [Layout.nodes, Node.isClosableAll, Bool.and_eq_true] at hclosable
    have hfirst := unended.writable fun name hname => hnames name (.inl hname)
    have hrest := ih hstops (fun name hname => hnames name (.inr hname)) hclosable.2
    obtain ⟨hclosed, hbrace⟩ := others.closed_unended unended blanks hfirst excerpt.spelled hstops
      closed hrest hclosable.1.2
    refine tidy_unended unended blanks hfirst (fun _ => hclosed) rest.tidy_kindsAmong
      (fun after hafter => ?_) hrest
    have hcloses : Closes true ['\x7d'] := rfl
    exact (Token.spelled_append.1 (hcloses.spelled hafter hbrace)).1
  | @outside x y ws ts n rest blanks unended excerpt stops others ih =>
    simp only [Layout.nodes, Node.keywordsOfAll, List.mem_append] at hnames
    simp only [Layout.nodes, Node.isClosableAll, Bool.and_eq_true] at hclosable
    have hfirst := unended.writable fun name hname => hnames name (.inl hname)
    have hrest := ih hstops (fun name hname => hnames name (.inr hname)) hclosable.2
    have hnil := tokens_of_staysIn hrest unended.isUnended hclosable.1.2
    -- The brace that ended the node is gone, so the node has to be read back at the end of the text.
    have hend : Token.Spelled (ws ++ ts) [] := by
      rcases stops with rfl | hy
      · exact excerpt.spelled
      · obtain ⟨ys, rfl⟩ := List.head?_eq_some_iff.1 hy
        exact excerpt.spelled.at_end
    obtain ⟨t, us, rfl, -, hwhite⟩ := unended.first
    have hshown := hend.shownFirst_blanks blanks rfl hwhite (hfirst t List.mem_cons_self)
    refine tidy_unended unended blanks hfirst (fun hopen => absurd hopen Bool.false_ne_true) ?_
      (fun after hafter => ?_) hrest
    · rw [hnil]
      exact .refl []
    · obtain rfl : after = [] := hafter
      rwa [hnil]
  | @block nested x y z ws head o inner rest innerEnd blanks opens excerpt inside stops kind text
      others ihInner ihRest =>
    simp only [Layout.nodes, Node.keywordsOfAll, List.mem_append] at hnames
    simp only [Layout.nodes, Node.isClosableAll, o.isClosable_node, Bool.and_eq_true] at hclosable
    obtain ⟨hfirst, hnamesInner⟩ := opens.writable fun name hname => hnames name (.inl hname)
    have hinner := ihInner stops hnamesInner hclosable.1.1
    have hrest := ihRest hstops (fun name hname => hnames name (.inr hname)) hclosable.2
    have hfirm := opens.firm_shownFirst excerpt.spelled blanks hfirst
    exact Tidy.block_iff.2 ⟨⟨blanks, opens.shownFirst, Token.shownFirst_plain hfirst, hfirm, kind,
      text⟩, hinner, hrest⟩

end Layout

namespace Stylesheet

/-- What a lenient reader makes of a text without carriage returns is laid out in excerpts of it. -/
theorem exists_patched {config : ParseConfig} {text : String} {s : Stylesheet}
    (hreturn : '\r' ∉ text.toList) (hs : parse config text = .ok s) :
    ∃ c : Layout, c.Patched false [] ∧ c.sheet config.origin = s := by
  obtain ⟨items, hcourse, rfl⟩ := exists_course hs
  have hexcerpt : Token.Excerpt (Token.lex config.start (unifyLineEnds text.toList)) [] := by
    refine ⟨Token.spelled_lex _ _, ?_⟩
    rwa [Token.source_lex, unifyLineEnds_of_not_mem hreturn, List.append_nil]
  obtain ⟨c, tail, hblock⟩ := hcourse.exists_block hexcerpt
  have hpatched : c.Patched false (Token.source tail) := hblock.patched
  cases hblock.ends with
  | text made =>
    refine ⟨c, hpatched, ?_⟩
    rw [ofItems, made]
    simp [closeAll, Layout.sheet]
  | brace inside => exact absurd rfl inside

/-- A lenient reader reads every text, and what it writes is read strictly as the same stylesheet but
for the places, and is written as it is: if the name of each at-rule is read back as it is written,
and if each node that no semicolon ends can be told from what is written behind it. -/
theorem parse_repaired (config : ParseConfig) {text : String} (hreturn : '\r' ∉ text.toList) :
    ∃ s, parse { config with lenient := true } text = .ok s ∧
      ((∀ name ∈ s.keywords,
          Scan.token ('@' :: name.toList) = some (.atKeyword name, name.toList.length + 1)) →
        s.isClosable = true →
        ∃ s', parse { config with lenient := false } s.print = .ok s' ∧
          s'.unplaced = s.unplaced ∧ s'.print = s.print) := by
  obtain ⟨items, hcourse⟩ := Item.Course.exists
    (config.start.advance (unifyLineEnds text.toList)) 0
    (Token.lex config.start (unifyLineEnds text.toList))
  obtain ⟨pieces, hpieces, -⟩ := exists_of_map_eq_ok hcourse.readFrom
  have hs : parse { config with lenient := true } text =
    .ok (ofItems config.origin (Piece.values pieces)) := congrArg (Except.map _) hpieces
  refine ⟨_, hs, fun hnames hclosable => ?_⟩
  obtain ⟨c, hpatched, hsheet⟩ := exists_patched hreturn hs
  rw [← hsheet] at hnames hclosable ⊢
  have hplain : ∀ name ∈ Node.keywordsOfAll c.nodes, Scan.IsPlainName name := fun name hname =>
    Scan.isPlainName_iff.2 (hnames name hname)
  have htidy := hpatched.tidy_tidy (.inl rfl) hplain hclosable
  have hsame : c.tidy.sheet config.origin = c.sheet config.origin := by
    simp only [Layout.sheet, Layout.after, c.tidy_nodes.1, c.tidy_nodes.2]
  have htext : (c.sheet config.origin).print.toList = Token.source c.tidy.tokens := by
    rw [← hsame, ← htidy.print, Stylesheet.print, String.toList_append]
    rfl
  have hwritten := hpatched.not_mem_tidy hplain
  rw [← htext] at hwritten
  have hstrict : { config with lenient := false }.lenient = false := rfl
  obtain ⟨s', hread, hunplaced, hprint⟩ := htidy.exists_parse htext hwritten hstrict
  exact ⟨s', hread, by rw [hunplaced, hsame], hprint⟩

/-- A brace that closes no block and a declaration without a colon are gone, and the comment and both
blocks are closed. -/
theorem parse_repaired_nested :
    ∃ s s', parse { ParseConfig.strict with lenient := true } "\x7d@m\x7ba\x7bb;c:d/*e" = .ok s ∧
      s.print = "@m\x7ba\x7bc:d/*e*/\x7d\x7d" ∧ parse .strict s.print = .ok s' ∧
      s'.unplaced = s.unplaced ∧ s'.print = s.print := by
  have hreturn : '\r' ∉ "\x7d@m\x7ba\x7bb;c:d/*e".toList := by decide
  obtain ⟨s, hs, hrepaired⟩ := parse_repaired .strict hreturn
  have hread : (parse { ParseConfig.strict with lenient := true }
      "\x7d@m\x7ba\x7bb;c:d/*e").toOption.any (fun s =>
        s.print = "@m\x7ba\x7bc:d/*e*/\x7d\x7d" ∧ s.keywords = ["m"] ∧ s.isClosable = true) = true := by
    decide +kernel
  rw [hs] at hread
  obtain ⟨hprint, hkeywords, hclosable⟩ := of_decide_eq_true hread
  have hnames : ∀ name ∈ s.keywords,
      Scan.token ('@' :: name.toList) = some (.atKeyword name, name.toList.length + 1) := by
    rw [hkeywords]
    exact List.forall_mem_singleton.2 rfl
  obtain ⟨s', hs'⟩ := hrepaired hnames hclosable
  exact ⟨s, s', hs, hprint, hs'⟩

/-- The string takes the brace in that is written behind it. -/
example : (parse { ParseConfig.strict with lenient := true } "a\x7bb:\"c").toOption.any (fun s =>
    s.print = "a\x7bb:\"c\x7d" ∧ s.isClosable = false) = true := by decide +kernel

end Stylesheet

end GradientFallback
