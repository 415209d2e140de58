import GradientFallback.Proofs.Stylesheet.Building
import GradientFallback.Proofs.Stylesheet.Placing
import GradientFallback.Text.Source

/-! # Reading what was written

The text of a stylesheet that was read strictly is read again as the same tree, with other places
only: what was left out of the text does not count, and what was written anew is read as it was
meant.  For that the names of the at-rules have to be plain, since they are written without their
escapes; and there may be no carriage returns, since those are read as line feeds.
-/
namespace GradientFallback

/-! ## Texts without carriage returns -/

theorem unifyLineEnds_of_not_mem {cs : List Char} (h : '\r' ∉ cs) : unifyLineEnds cs = cs := by
  induction cs with
  | nil => rfl
  | cons c cs ih =>
    rw [List.mem_cons, not_or] at h
    rw [unifyLineEnds, if_neg fun hreturn => h.1 hreturn.1.symm, ih h.2]

theorem Scan.mem_of_mem_commentContent {c : Char} {cs : List Char} (h : c ∈ commentContent cs) :
    c ∈ cs := by
  rcases commentContent_cases cs with hall | ⟨es, hes⟩
  · rwa [hall] at h
  · rw [hes]
    exact List.mem_append_left _ h

namespace Token

theorem not_mem_shown {t : Token} {x : List Char}
    (h : Scan.token (t.text ++ x) = some (t.kind, t.text.length)) (hplain : t.Writable)
    (hreturn : '\r' ∉ t.text ++ x) : '\r' ∉ t.shown.text := by
  unfold shown
  split
  · next name hkind =>
    intro hmem
    rcases List.mem_cons.1 hmem with hat | hmem
    · exact absurd hat (by decide)
    · exact absurd ((hplain name hkind).2 _ hmem) (by decide)
  · next content hkind =>
    rw [hkind] at h
    obtain ⟨ds, hds, rfl, -⟩ := (Scan.reading_of_token h).of_comment
    rw [hds] at hreturn
    intro hmem
    simp only [String.toList_ofList, List.mem_cons, List.mem_append] at hmem
    rcases hmem with hmem | hmem | hmem | hmem | hmem | hmem
    · exact absurd hmem (by decide)
    · exact absurd hmem (by decide)
    · exact hreturn (by simp [Scan.mem_of_mem_commentContent hmem])
    · exact absurd hmem (by decide)
    · exact absurd hmem (by decide)
    · exact absurd hmem List.not_mem_nil
  · exact fun hmem => hreturn (List.mem_append_left x hmem)

theorem not_mem_shownFirst {ts : List Token} {x : List Char} (h : Spelled ts x)
    (hplain : ∀ t ∈ ts.take 1, t.Writable) (hreturn : '\r' ∉ source ts ++ x) :
    '\r' ∉ source (shownFirst ts) := by
  cases ts with
  | nil => exact List.not_mem_nil
  | cons t ts =>
    rw [source_cons, List.append_assoc] at hreturn
    have hfirst := not_mem_shown h.1 (hplain t List.mem_cons_self) hreturn
    simp only [List.mem_append, not_or] at hreturn
    rw [shownFirst, source_cons, List.mem_append, not_or]
    exact ⟨hfirst, hreturn.2.1⟩

end Token

/-- A layout of a text without carriage returns is tidied without them. -/
theorem Layout.not_mem_tidy {nested : Bool} {c : Layout} {after : List Char} (hc : c.Lawful nested)
    (hspelled : Token.Spelled c.tokens after)
    (hnames : ∀ name ∈ Node.keywordsOfAll c.nodes, Scan.IsPlainName name)
    (hreturn : '\r' ∉ Token.source c.tokens ++ after) : '\r' ∉ Token.source c.tidy.tokens := by
  induction c generalizing nested after with
  | ending blanks => exact fun hmem => hreturn (List.mem_append_left after hmem)
  | sign blanks t rest ih =>
    simp only [tokens, Token.source_append, Token.source_cons, List.mem_append, not_or] at hreturn
    exact ih hc.2.2 (Token.spelled_append.1 hspelled).2.2 hnames (by simp [hreturn])
  | leaf blanks ts n rest ih =>
    simp only [Layout.nodes, Node.keywordsOfAll, List.mem_append] at hnames
    simp only [tokens, Token.source_append, List.mem_append, not_or] at hreturn
    obtain ⟨hfront, hback⟩ := Token.spelled_append.1 hspelled
    have hfirst := hc.2.1.writable fun name hname => hnames name (.inl hname)
    have hts := Token.not_mem_shownFirst (Token.spelled_append.1 hfront).2 hfirst (by simp [hreturn])
    have hrest := ih hc.2.2 hback (fun name hname => hnames name (.inr hname)) (by simp [hreturn])
    simp only [tidy, tokens, Token.source_append, List.mem_append, not_or]
    exact ⟨⟨hreturn.1.1.1, hts⟩, hrest⟩
  | block blanks head o inner innerEnd rest ihInner ihRest =>
    obtain ⟨-, hopens, hinner, -, hrest⟩ := hc
    simp only [Layout.nodes, Node.keywordsOfAll, List.mem_append] at hnames
    simp only [tokens, Token.source_append, Token.source_cons, List.mem_append, not_or] at hreturn
    obtain ⟨hfirst, hinnerNames⟩ := hopens.writable fun name hname => hnames name (.inl hname)
    obtain ⟨hfront, hback⟩ := Token.spelled_append.1 hspelled
    obtain ⟨hhead, hinside⟩ := Token.spelled_append.1 hfront
    have hts := Token.not_mem_shownFirst (Token.spelled_append.1 hhead).2 hfirst (by simp [hreturn])
    have hin := ihInner hinner hinside hinnerNames (by simp [hreturn])
    have hout := ihRest hrest hback.2 (fun name hname => hnames name (.inr hname)) (by simp [hreturn])
    simp only [tidy, tokens, Token.source_append, Token.source_cons, List.mem_append, not_or]
    exact ⟨⟨⟨hreturn.1.1.1.1, hts⟩, hin⟩, hreturn.1.2.1, hout⟩

/-! ## Texts of tidy layouts -/

theorem Token.Same.plain {ts us : List Token} (h : Same ts us) (hus : ∀ u ∈ us, u.Plain) :
    ∀ t ∈ ts, t.Plain := by
  have hplain := h.forall_mem (P := fun kind text => (⟨kind, .origin, text⟩ : Token).Plain)
    fun u hu => ⟨(hus u hu).keyword, (hus u hu).comment⟩
  exact fun t ht => ⟨(hplain t ht).keyword, (hplain t ht).comment⟩

/-- The stylesheet with all places set to the start of a text. -/
def Stylesheet.unplaced (s : Stylesheet) : Stylesheet := { s with nodes := Node.unplacedAll s.nodes }

namespace Layout

/-- A spelled layout of a whole stylesheet is read from its text, at the places in that text. -/
theorem Lawful.exists_parse {c : Layout} (hc : c.Lawful false) (hspelled : Token.Spelled c.tokens [])
    {text : String} (htext : text.toList = Token.source c.tokens) (hreturn : '\r' ∉ text.toList)
    {config : ParseConfig} (hstrict : config.lenient = false) :
    ∃ c' : Layout, c'.Lawful false ∧ c'.SameUpToPlaces c ∧ (∀ t ∈ c'.tokens, t.Written) ∧
      Stylesheet.parse config text = .ok (c'.sheet config.origin) := by
  have hlex : Token.lex config.start (unifyLineEnds text.toList) =
      Token.settle config.start c.tokens := by
    have hread := Token.lex_source_append config.start hspelled
    rw [List.append_nil] at hread
    rw [unifyLineEnds_of_not_mem hreturn, htext, hread, Token.lex_nil, List.append_nil]
  obtain ⟨c', htokens, hlawful, hsame⟩ :=
    exists_same hc (Token.same_settle config.start c.tokens)
  have hread := ofTokens_of_lawful hstrict
    (config.start.advance (unifyLineEnds text.toList)) hlawful
  rw [htokens, ← hlex] at hread
  refine ⟨c', hlawful, hsame, ?_, hread⟩
  rw [htokens, ← hlex]
  exact (Token.spelled_lex config.start _).written

theorem SameUpToPlaces.unplaced_sheet {c' c : Layout} (h : c'.SameUpToPlaces c)
    (origin : Option String) : (c'.sheet origin).unplaced = (c.sheet origin).unplaced := by
  simp only [Stylesheet.unplaced, sheet, h.nodes, h.after]

/-- A tidy layout of a whole stylesheet is read again from its text. -/
theorem Tidy.exists_parse {c : Layout} (hc : c.Tidy false) {text : String}
    (htext : text.toList = Token.source c.tokens) (hreturn : '\r' ∉ text.toList)
    {config : ParseConfig} (hstrict : config.lenient = false) :
    ∃ s : Stylesheet, Stylesheet.parse config text = .ok s ∧
      s.unplaced = (c.sheet config.origin).unplaced ∧ s.print = text := by
  obtain ⟨c', hlawful, hsame, hwritten, hread⟩ :=
    Lawful.exists_parse hc.lawful (hc.spelled [] rfl) htext hreturn hstrict
  refine ⟨_, hread, hsame.unplaced_sheet config.origin, ?_⟩
  rw [← String.toList_inj, Stylesheet.print, String.toList_append, htext, ← hc.kept,
    ← hsame.kept.source]
  exact print_nodes hlawful hwritten (hsame.starts.plain hc.plain)

end Layout

namespace Stylesheet

/-- A stylesheet that is read strictly has a tidy layout, if the names of its at-rules are plain. -/
theorem exists_tidy {config : ParseConfig} {text : String} {s : Stylesheet}
    (hstrict : config.lenient = false) (hreturn : '\r' ∉ text.toList)
    (hs : parse config text = .ok s)
    (hnames : ∀ name ∈ s.keywords,
      Scan.token ('@' :: name.toList) = some (.atKeyword name, name.toList.length + 1)) :
    ∃ c : Layout, c.Tidy false ∧ c.sheet config.origin = s ∧ '\r' ∉ Token.source c.tokens := by
  have hplain : ∀ name ∈ Node.keywordsOfAll s.nodes, Scan.IsPlainName name := fun name hname =>
    Scan.isPlainName_iff.2 (hnames name hname)
  obtain ⟨c, hc, htokens, rfl⟩ := (Layout.ofTokens_eq_ok_iff hstrict _).1 hs
  rw [unifyLineEnds_of_not_mem hreturn] at htokens
  have hspelled : Token.Spelled c.tokens [] := by
    rw [htokens]
    exact Token.spelled_lex _ _
  have hsource : Token.source c.tokens = text.toList := by
    rw [htokens]
    exact Token.source_lex _ _
  have hclosed : Closes false [] := rfl
  refine ⟨c.tidy, Layout.tidy_tidy hc hclosed hspelled hplain, ?_, ?_⟩
  · simp only [Layout.sheet, Layout.after, c.tidy_nodes.1, c.tidy_nodes.2]
  · exact Layout.not_mem_tidy hc hspelled hplain (by simpa [hsource] using hreturn)

/-- The text of a stylesheet without carriage returns is read strictly as the stylesheet it is the
text of, but for the places, and is written as it is, if the name of each at-rule is read back as it
is written. -/
theorem parse_print {config : ParseConfig} {text : String} {s : Stylesheet}
    (hstrict : config.lenient = false) (hreturn : '\r' ∉ text.toList)
    (hs : parse config text = .ok s)
    (hnames : ∀ name ∈ s.keywords,
      Scan.token ('@' :: name.toList) = some (.atKeyword name, name.toList.length + 1)) :
    ∃ s', parse config s.print = .ok s' ∧ s'.unplaced = s.unplaced ∧ s'.print = s.print := by
  obtain ⟨c, hc, rfl, hwritten⟩ := exists_tidy hstrict hreturn hs hnames
  have htext : (c.sheet config.origin).print.toList = Token.source c.tokens := by
    rw [← hc.print, Stylesheet.print, String.toList_append]
    rfl
  rw [← htext] at hwritten
  exact hc.exists_parse htext hwritten hstrict

/-- A name with an escape that it does not need, a semicolon that says nothing and a comment that the
end of the text closes are written as other texts. -/
theorem parse_print_rewritten :
    ∃ s s', parse .strict "@\\6d  e;;/*" = .ok s ∧ s.print = "@m e;/**/" ∧
      parse .strict s.print = .ok s' ∧ s'.unplaced = s.unplaced ∧ s'.print = s.print := by
  let s : Stylesheet := ⟨[.statement ⟨"m", "e", ⟨1, 1, 0⟩, "", " ", ""⟩ true,
    .comment ⟨"", ⟨1, 10, 9⟩, ""⟩], "", none⟩
  have hs : parse .strict "@\\6d  e;;/*" = .ok s := rfl
  have hnames : ∀ name ∈ s.keywords,
      Scan.token ('@' :: name.toList) = some (.atKeyword name, name.toList.length + 1) :=
    List.forall_mem_singleton.2 rfl
  obtain ⟨s', hs'⟩ := parse_print rfl (by decide) hs hnames
  exact ⟨s, s', hs, rfl, hs'⟩

end Stylesheet
end GradientFallback
