import GradientFallback.Proofs.Stylesheet.Recognition
import GradientFallback.Proofs.Token.Spelling
import GradientFallback.Stylesheet.Printer

/-! # Writing a stylesheet gives the text it was read from

Every character of a construct stands in exactly one of the texts that its node keeps.  What is
lost between reading and writing are the signs that say nothing, with the blanks in front of them.
-/
namespace GradientFallback

namespace Item

/-! ## Nothing is lost where a construct is cut -/

theorem takeWhile_trim_trailing (cs : List Char) :
    cs.takeWhile isBlank ++ (trim cs ++ trailing isBlank (trimStart cs)) = cs := by
  rw [trim, trimEnd, dropTrailing_append_trailing]
  exact List.takeWhile_append_dropWhile

theorem splitMarker_append (value : List Char) :
    (splitMarker value).1 ++ (splitMarker value).2.getD [] = value := by
  simp only [splitMarker]
  split
  · have hkept : trimEnd (value.take (value.length -
        (value.reverse.takeWhile (· != '!')).reverse.length)).dropLast <+: value :=
      (List.IsPrefix.trans ⟨_, dropTrailing_append_trailing isBlank _⟩ (List.dropLast_prefix _)).trans
        (List.take_prefix _ value)
    exact List.prefix_iff_eq_append.1 hkept
  · exact List.append_nil value

theorem print_ofRun (before name : String) (location : Location) (run : List Token) :
    (AtRuleHead.ofRun before name location run).print.toList =
      before.toList ++ '@' :: name.toList ++ Token.source run := by
  have hsplit := takeWhile_trim_trailing (Token.source run)
  simp only [AtRuleHead.print, AtRuleHead.ofRun, String.toList_append, String.toList_ofList,
    List.append_assoc, hsplit]
  rfl

theorem print_ruleOfRun (before : String) (location : Location) (run : List Token) :
    (RuleHead.ofRun before location run).print.toList = before.toList ++ Token.source run := by
  simp only [RuleHead.print, RuleHead.ofRun, String.toList_append, String.toList_ofList,
    List.append_assoc, trimEnd, dropTrailing_append_trailing]

theorem print_declaration (p : DeclarationParts) (before : String) (after : List Token)
    (semicolon : Bool) :
    (p.declaration before after semicolon).print.toList =
      before.toList ++ Token.source p.tokens ++ Token.source after ++
        if semicolon then [';'] else [] := by
  have hsplit (more : List Char) : (splitMarker (Token.source p.value)).1 ++
      ((splitMarker (Token.source p.value)).2.getD [] ++ more) = Token.source p.value ++ more := by
    rw [← List.append_assoc, splitMarker_append]
  have hmarker : (p.declaration before after semicolon).markerText.toList =
      (splitMarker (Token.source p.value)).2.getD [] := by
    rcases hmark : (splitMarker (Token.source p.value)).2 with _ | marker <;>
      simp [Declaration.markerText, DeclarationParts.declaration, DeclarationParts.split, hmark]
  simp only [Declaration.print, String.toList_append, hmarker]
  simp only [DeclarationParts.declaration, DeclarationParts.split, sourceText, String.toList_ofList,
    DeclarationParts.tokens, Token.source_append, Token.source_cons, List.append_assoc]
  cases semicolon <;> simp [hsplit]

/-! ## Constructs -/

/-- A node without a block is written with its tokens and the blanks in front of them. -/
theorem print_leaf {nested : Bool} {before : String} {ts rest : List Token} {n : Node}
    (h : Leaf nested before ts rest n) (hwritten : ∀ t ∈ ts, t.Written)
    (hplain : ∀ t ∈ ts.take 1, t.Plain) :
    n.print.toList = before.toList ++ Token.source ts := by
  cases h with
  | @comment t content _ kind =>
    have htext := Token.text_of_comment (hwritten t List.mem_cons_self) kind
      ((hplain t List.mem_cons_self).comment content kind)
    simp [Node.print, Comment.print, htext]
  | @statement t semicolon name run _ kind passes closed ends =>
    have htext := Token.text_of_atKeyword (hwritten t (by simp)) kind
      ((hplain t (by simp)).keyword name kind)
    have hsign : semicolon.text = [';'] :=
      Token.text_of_sign (hwritten semicolon (by simp)) (by rw [ends]; rfl)
    simp [Node.print, print_ofRun, htext, hsign]
  | @lastStatement t name run kind passes closed =>
    have htext := Token.text_of_atKeyword (hwritten t (by simp)) kind
      ((hplain t (by simp)).keyword name kind)
    simp [Node.print, print_ofRun, htext]
  | @declaration p after _ semicolon inside lawful after_trivia after_nil ends =>
    have hsign : semicolon.text = [';'] :=
      Token.text_of_sign (hwritten semicolon (by simp)) (by rw [ends]; rfl)
    simp [Node.print, print_declaration, hsign]
  | @lastDeclaration p _ inside lawful rest_trivia rest_nil =>
    simp [Node.print, print_declaration]

/-- A block is written with the tokens of its start, what stands in it and its closing brace. -/
theorem print_opens {before after : String} {head : List Token} {o : Opening} {nodes : List Node}
    (h : Opens before head o) (hwritten : ∀ t ∈ head, t.Written)
    (hplain : ∀ t ∈ head.take 1, t.Plain) :
    (o.node nodes after).print.toList = before.toList ++ Token.source head ++
      ((Node.printAll nodes).toList ++ after.toList ++ ['\x7d']) := by
  cases h with
  | @rule run brace ends starts passes closed =>
    have hsign : brace.text = ['\x7b'] :=
      Token.text_of_sign (hwritten brace (by simp)) (by rw [ends]; rfl)
    simp [Opening.node, Node.print, print_ruleOfRun, hsign]
  | @atRule t brace name run kind passes closed ends =>
    have htext := Token.text_of_atKeyword (hwritten t (by simp)) kind
      ((hplain t (by simp)).keyword name kind)
    have hsign : brace.text = ['\x7b'] :=
      Token.text_of_sign (hwritten brace (by simp)) (by rw [ends]; rfl)
    simp [Opening.node, Node.print, print_ofRun, htext, hsign]

end Item

namespace Layout

open Item

/-- The nodes of a layout are written with the tokens that they are read from. -/
theorem print_nodes {nested : Bool} {c : Layout} (hc : c.Lawful nested)
    (hwritten : ∀ t ∈ c.tokens, t.Written) (hplain : ∀ t ∈ c.starts, t.Plain) :
    (Node.printAll c.nodes).toList ++ c.after.toList = Token.source c.kept := by
  induction c generalizing nested with
  | ending blanks => simp [Layout.nodes, Node.printAll, after, last, kept, sourceText]
  | sign blanks t rest ih =>
    exact ih hc.2.2 (fun u hu => hwritten u (by simp [tokens, hu])) hplain
  | leaf blanks ts n rest ih =>
    have hleaf := print_leaf hc.2.1 (fun u hu => hwritten u (by simp [tokens, hu]))
      fun u hu => hplain u (List.mem_append_left _ hu)
    have hrest := ih hc.2.2 (fun u hu => hwritten u (by simp [tokens, hu]))
      fun u hu => hplain u (List.mem_append_right _ hu)
    rw [after, last, ← after, Layout.nodes, Node.printAll, String.toList_append, hleaf,
      List.append_assoc, hrest]
    simp [kept, sourceText]
  | block blanks head o inner innerEnd rest ihInner ihRest =>
    have hopens : (o.node inner.nodes inner.after).print.toList = _ :=
      print_opens hc.2.1 (fun u hu => hwritten u (by simp [tokens, hu]))
        fun u hu => hplain u (List.mem_append_left _ (List.mem_append_left _ hu))
    have hinner := ihInner hc.2.2.1 (fun u hu => hwritten u (by simp [tokens, hu]))
      fun u hu => hplain u (List.mem_append_left _ (List.mem_append_right _ hu))
    have hrest := ihRest hc.2.2.2.2 (fun u hu => hwritten u (by simp [tokens, hu]))
      fun u hu => hplain u (List.mem_append_right _ hu)
    have hsign : innerEnd.text = ['\x7d'] :=
      Token.text_of_sign (hwritten innerEnd (by simp [tokens])) (by rw [hc.2.2.2.1]; rfl)
    rw [after, last, ← after, Layout.nodes, Node.printAll, String.toList_append, hopens, hinner,
      List.append_assoc, hrest]
    simp [kept, sourceText, hsign]

end Layout

namespace Stylesheet

/-- A stylesheet that is read strictly from a text is laid out in the tokens of the text in one or
more ways, and each of them makes it.  It is written with all of the text but the signs that stand
where a node could start and the blanks in front of these, if the keywords of its at-rules have no
escapes and its comments are closed. -/
theorem print_parse {config : ParseConfig} {text : String} {s : Stylesheet}
    (hstrict : config.lenient = false) (h : parse config text = .ok s) :
    Token.source (Token.lex config.start (unifyLineEnds text.toList)) =
        unifyLineEnds text.toList ∧
      (∃ c : Layout, c.Lawful false ∧
        c.tokens = Token.lex config.start (unifyLineEnds text.toList)) ∧
      ∀ c : Layout, c.Lawful false →
        c.tokens = Token.lex config.start (unifyLineEnds text.toList) →
        c.sheet config.origin = s ∧
          ((∀ t ∈ c.starts, t.Plain) → s.print.toList = Token.source c.kept) := by
  have hspelled := Token.spelled_lex config.start (unifyLineEnds text.toList)
  obtain ⟨c, hc, htokens, -⟩ := (Layout.ofTokens_eq_ok_iff hstrict _).1 h
  refine ⟨Token.source_lex _ _, ⟨c, hc, htokens⟩, fun c hc htokens => ?_⟩
  have hread := Layout.ofTokens_of_lawful hstrict
    (config.start.advance (unifyLineEnds text.toList)) hc
  rw [htokens] at hread
  have hsheet : c.sheet config.origin = s := Except.ok.inj (hread.symm.trans h)
  refine ⟨hsheet, fun hplain => ?_⟩
  rw [← hsheet, Stylesheet.print, String.toList_append]
  exact Layout.print_nodes hc (fun t ht => hspelled.written t (htokens ▸ ht)) hplain

/-- The second semicolon says nothing, and the blank in front of it goes with it. -/
theorem print_parse_sign :
    ∃ s, parse .strict "@d e; ;" = .ok s ∧ s.print.toList = ['@', 'd', ' ', 'e', ';'] := by
  let keyword : Token := ⟨.atKeyword "d", ⟨1, 1, 0⟩, ['@', 'd']⟩
  let run : List Token := [⟨.whitespace, ⟨1, 3, 2⟩, [' ']⟩, ⟨.ident "e", ⟨1, 4, 3⟩, ['e']⟩]
  let sign : Token := ⟨.semicolon, ⟨1, 5, 4⟩, [';']⟩
  let c : Layout := .leaf [] (keyword :: run ++ [sign])
    (.statement (.ofRun "" "d" ⟨1, 1, 0⟩ run) true)
    (.sign [⟨.whitespace, ⟨1, 6, 5⟩, [' ']⟩] ⟨.semicolon, ⟨1, 7, 6⟩, [';']⟩ (.ending []))
  have hc : c.Lawful false :=
    ⟨nofun, .statement rfl ⟨fun _ => rfl, fun _ => rfl, trivial⟩ rfl rfl,
      List.forall_mem_singleton.2 rfl, rfl, nofun⟩
  have hplain : ∀ t ∈ c.starts, t.Plain := by
    intro t ht
    obtain rfl := List.mem_singleton.1 ht
    exact ⟨fun _ _ => by decide, nofun⟩
  have hread : parse .strict "@d e; ;" = .ok (c.sheet none) := rfl
  exact ⟨c.sheet none, hread, ((print_parse rfl hread).2.2 c hc rfl).2 hplain⟩

end Stylesheet
end GradientFallback
