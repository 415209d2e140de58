import GradientFallback.CommandLine.Run
import GradientFallback.Proofs.Files.Writing
import GradientFallback.Proofs.Stylesheet.Reading

/-! # Runs and processed texts

A run that asks for no tokens, no tree and no passing of errors does to a file what is done to its
text: it writes the stylesheet with its filters, reports the warnings, and leaves all files alone
where the text cannot be read.  That the text comes from a file with a name makes no difference.
-/
namespace GradientFallback

namespace Stylesheet

/-- The stylesheet of a text that was found elsewhere. -/
def foundIn (s : Stylesheet) (origin : Option String) : Stylesheet := { s with origin := origin }

theorem closeAll_foundIn (origin origin' : Option String) (after : String) (outer : List OpenBlock)
    (nodes : Array Node) :
    (closeAll origin after outer nodes).foundIn origin' = closeAll origin' after outer nodes := by
  induction outer generalizing after nodes with
  | nil => rfl
  | cons b outer ih => exact ih "" _

theorem assemble_foundIn (origin origin' : Option String) (outer : List OpenBlock) (nodes : Array Node)
    (items : List Item) :
    (assemble origin outer nodes items).foundIn origin' = assemble origin' outer nodes items := by
  fun_induction assemble origin outer nodes items with
  | case1 outer nodes => exact closeAll_foundIn origin origin' "" outer nodes
  | case2 outer nodes after _ => exact closeAll_foundIn origin origin' after outer nodes
  | case3 outer nodes n items ih => exact ih
  | case4 outer nodes o items ih => exact ih
  | case5 nodes after items b outer ih => exact ih
  | case6 nodes _ items ih => exact ih
  | case7 outer nodes items ih => exact ih

/-- Where a text was found is only kept. -/
theorem parse_foundIn (config : ParseConfig) (origin : Option String) (text : String) :
    parse { config with origin := origin } text = (parse config text).map (·.foundIn origin) := by
  simp only [parse, ofChars, ofTokens]
  rcases Item.readAll config.lenient (config.start.advance (unifyLineEnds text.toList))
    (Token.lex config.start (unifyLineEnds text.toList)) with e | items
  · rfl
  · exact congrArg Except.ok (assemble_foundIn config.origin origin [] #[] _).symm

theorem print_foundIn (s : Stylesheet) (origin : Option String) : (s.foundIn origin).print = s.print := rfl

theorem transform_foundIn (o : Options) (s : Stylesheet) (origin : Option String) :
    (s.foundIn origin).transform o = ((s.transform o).1.foundIn origin, (s.transform o).2) := rfl

end Stylesheet

namespace CommandLine

/-! ## Asking for a command -/

/-- One way to ask for a command. -/
def Command.arguments (c : Command) : List String :=
  c.flags.map (fun f => "--" ++ f.name) ++
    (c.config.map fun path => "--" ++ Setting.config.name ++ "=" ++ path).toList ++
    (c.output.map fun path => "--" ++ Setting.output.name ++ "=" ++ path).toList ++ ["--", c.input]

theorem readArguments_flag {g : Given} {f : Flag} (hf : f ∉ g.flags) (rest : List String) :
    readArguments g (("--" ++ f.name) :: rest) =
      readArguments { g with flags := g.flags ++ [f] } rest := by
  have hadd : g.addFlag f = .ok { g with flags := g.flags ++ [f] } := by
    rw [Given.addFlag, if_neg (by simpa using hf)]
  have hname : "--" ++ f.name ≠ "--" := by cases f <;> decide
  have hread : readArgument g ("--" ++ f.name) = (g.addFlag f).map .done := by
    cases f <;> rfl
  rw [readArguments, if_neg hname, hread, hadd]
  rfl

theorem readArguments_setting {g g' : Given} {s : Setting} {value : String}
    (h : g.set s value = .ok g') (rest : List String) :
    readArguments g (("--" ++ s.name ++ "=" ++ value) :: rest) = readArguments g' rest := by
  have htext : ("--" ++ s.name ++ "=" ++ value).toList =
      '-' :: '-' :: (s.name.toList ++ '=' :: value.toList) := by
    simp only [String.toList_append, List.append_assoc]
    rfl
  have hname : "--" ++ s.name ++ "=" ++ value ≠ "--" := by
    intro hsame
    have htwo := congrArg String.toList hsame
    rw [htext] at htwo
    exact absurd htwo (by simp)
  have hlong : readLong g (s.name.toList ++ '=' :: value.toList) =
      (g.set s (String.ofList value.toList)).map .done := by
    cases s <;> rfl
  have hread : readArgument g ("--" ++ s.name ++ "=" ++ value) = .ok (.done g') := by
    simp only [readArgument, htext]
    rw [hlong, String.ofList_toList, h]
    rfl
  rw [readArguments, if_neg hname, hread]

theorem readArguments_flags {g : Given} {flags : List Flag} (hnodup : (g.flags ++ flags).Nodup)
    (rest : List String) :
    readArguments g (flags.map (fun f => "--" ++ f.name) ++ rest) =
      readArguments { g with flags := g.flags ++ flags } rest := by
  induction flags generalizing g with
  | nil => simp
  | cons f flags ih =>
    have hf : f ∉ g.flags := fun hmem =>
      (List.nodup_append.1 hnodup).2.2 f hmem f List.mem_cons_self rfl
    have hothers : ((g.flags ++ [f]) ++ flags).Nodup := by simpa using hnodup
    rw [List.map_cons, List.cons_append, readArguments_flag hf, ih hothers, List.append_assoc]
    rfl

theorem readArguments_input {g : Given} (hg : g.input = none) (input : String) :
    readArguments g ["--", input] = .ok (.run ⟨input, g.output, g.config, g.flags⟩) := by
  rw [readArguments, if_pos rfl]
  simp only [List.foldlM_cons, List.foldlM_nil, Given.setInput, hg]
  rfl

/-- Every command whose flags are all different can be asked for. -/
theorem requestOf_arguments {c : Command} (hflags : c.flags.Nodup) :
    requestOf c.arguments = .ok (.run c) := by
  rcases c with ⟨input, output, config, flags⟩
  rw [requestOf, Command.arguments, List.append_assoc, List.append_assoc,
    readArguments_flags (by simpa [Given.nothing] using hflags)]
  have houtput (g : Given) (hinput : g.input = none) (houtput : g.output = none) (path : String) :
      readArguments g ["--" ++ Setting.output.name ++ "=" ++ path, "--", input] =
        .ok (.run ⟨input, some path, g.config, g.flags⟩) := by
    have hset : g.set .output path = .ok { g with output := some path } := by
      simp only [Given.set, houtput]
    exact (readArguments_setting hset _).trans
      (readArguments_input (g := { g with output := some path }) hinput input)
  have hconfig (path : String) (rest : List String) :
      readArguments ⟨none, none, none, flags⟩ (("--" ++ Setting.config.name ++ "=" ++ path) :: rest) =
        readArguments ⟨none, none, some path, flags⟩ rest :=
    readArguments_setting rfl rest
  cases config with
  | none =>
    cases output with
    | none => exact readArguments_input rfl input
    | some path => exact houtput _ rfl rfl path
  | some file =>
    cases output with
    | none => exact (hconfig file _).trans (readArguments_input rfl input)
    | some path => exact (hconfig file _).trans (houtput _ rfl rfl path)

/-! ## Options -/

/-- The options with what a flag wants. -/
def Flag.change (o : Options) : Flag → Options
  | .noAngleFallback => { o with angleFallback := false }
  | .skipMultiColor => { o with skipMultiColor := true }
  | .skipWarnings => { o with skipWarnings := true }
  | _ => o

/-- What a run does follows its flags one after the other. -/
theorem options_eq_foldl (c : Command) (o : Options) :
    c.options o = c.flags.foldl Flag.change o := by
  rcases c with ⟨input, output, config, flags⟩
  simp only [Command.options, Command.has]
  induction flags generalizing o with
  | nil => simp
  | cons f flags ih =>
    rw [List.foldl_cons, ← ih]
    cases f <;> simp [Flag.change]

/-- The options of the file of a command, or the usual ones if it names none. -/
def Command.configured (c : Command) (t : FileTree) : Except OptionsError Options :=
  match c.config with
  | some path => Options.ofFile (t.readText path)
  | none => .ok .default

/-- The options of a command: those of its file, with what its flags want. -/
def Command.chosen (c : Command) (t : FileTree) : Except OptionsError Options :=
  (c.configured t).map fun o => c.flags.foldl Flag.change o

/-! ## Runs -/

/-- The flags that choose options and nothing else. -/
def Flag.isOption : Flag → Bool
  | .noAngleFallback => true
  | .skipMultiColor => true
  | .skipWarnings => true
  | _ => false

theorem has_eq_false {c : Command} (hflags : ∀ f ∈ c.flags, f.isOption = true) {f : Flag}
    (hf : f.isOption = false) : c.has f = false := by
  rw [Command.has, Bool.eq_false_iff]
  intro hmem
  rw [hflags f (by simpa using hmem)] at hf
  exact Bool.false_ne_true hf.symm

/-- The warnings of a run, one a line, behind the name of its input. -/
def warningLines (input : String) (ds : List Diagnostic) : String :=
  String.join (ds.map fun d => input ++ ":" ++ d.text ++ "\n")

theorem run_of_request {t : FileTree} {c : Command} {arguments : List String}
    (h : requestOf arguments = .ok (.run c)) :
    run t arguments =
      match (c.reply (t.readText c.input) (c.configured t)).write with
      | none => (c.reply (t.readText c.input) (c.configured t), t)
      | some (path, content) =>
        match t.writeText path content with
        | .ok t' => (c.reply (t.readText c.input) (c.configured t), t')
        | .error e => ((c.reply (t.readText c.input) (c.configured t)).unwritten path e, t) := by
  rw [run, h]
  rfl

/-- What a run with options does, from what is done to its text. -/
theorem run_eq {t : FileTree} {c : Command} {arguments : List String} {css : String} {o : Options}
    (harguments : requestOf arguments = .ok (.run c)) (hflags : ∀ f ∈ c.flags, f.isOption = true)
    (hinput : t.readText c.input = .ok css) (hoptions : c.chosen t = .ok o) :
    run t arguments =
      match process o css with
      | .error e => (c.rejected css e, t)
      | .ok p =>
        match c.output with
        | none => (⟨0, p.css, warningLines c.input p.diagnostics, none⟩, t)
        | some path =>
          let reply : Reply :=
            ⟨0, "", warningLines c.input p.diagnostics, some (path, p.css)⟩
          match t.writeText path p.css with
          | .ok t' => (reply, t')
          | .error e => (reply.unwritten path e, t) := by
  have hparse : c.parseConfig = { ParseConfig.strict with origin := some c.input } := by
    rw [Command.parseConfig, has_eq_false hflags rfl]
    rfl
  obtain ⟨o', hconfig, rfl⟩ := exists_of_map_eq_ok hoptions
  rw [run_of_request harguments, hconfig, hinput]
  simp only [Command.reply, has_eq_false hflags (f := .tokens) rfl, Bool.false_eq_true, if_false,
    hparse, Stylesheet.parse_foundIn, process]
  rcases Stylesheet.parse .strict css with e | s
  · rfl
  · simp only [Except.map, Command.transformed, has_eq_false hflags (f := .ast) rfl,
      Bool.false_eq_true, if_false, options_eq_foldl, Stylesheet.transform_foundIn,
      Stylesheet.print_foundIn]
    cases c.output <;> rfl

/-- A run with options does to the file that it is given what is done to its text.  What is written
comes to the output file, whose content it then is, or else to the standard output.  Where the text
cannot be read, the run fails and changes nothing. -/
theorem run_processed {t : FileTree} {c : Command} {css : String} {o : Options}
    (hflags : ∀ f ∈ c.flags, f.isOption = true) (hinput : t.readText c.input = .ok css)
    (hoptions : c.chosen t = .ok o) :
    (c.flags.Nodup → ∃ arguments, requestOf arguments = .ok (.run c)) ∧
      ∀ arguments, requestOf arguments = .ok (.run c) →
        (∀ p, process o css = .ok p →
          (c.output = none →
            run t arguments = (⟨0, p.css, warningLines c.input p.diagnostics, none⟩, t)) ∧
          ∀ path t', c.output = some path → t.writeText path p.css = .ok t' →
            run t arguments =
              (⟨0, "", warningLines c.input p.diagnostics, some (path, p.css)⟩, t') ∧
            t'.readText path = .ok p.css ∧ ∃ way, t'.find path = .ok (.file way p.css.toUTF8) ∧
              t'.files.filter (fun f => f.path ≠ way) = t.files.filter fun f => f.path ≠ way) ∧
        ∀ e, process o css = .error e →
          ∃ stderr, run t arguments = (⟨1, "", stderr, none⟩, t) := by
  refine ⟨fun hdifferent => ⟨c.arguments, requestOf_arguments hdifferent⟩, fun arguments harguments =>
    ?_⟩
  rw [run_eq harguments hflags hinput hoptions]
  refine ⟨fun p hp => ⟨fun houtput => ?_, fun path t' houtput hwrite => ⟨?_, ?_⟩⟩, fun e he => ?_⟩
  · rw [hp, houtput]
  · rw [hp, houtput]
    simp only [hwrite]
  · exact FileTree.readText_writeText hwrite
  · rw [he]
    exact ⟨_, rfl⟩

/-- Options from a file and a flag, and a new file for the stylesheet. -/
theorem run_processed_file :
    let t : FileTree := ⟨[⟨["in.css"], "a\x7bb:c\x7d".toUTF8⟩, ⟨["o.json"], "[false]".toUTF8⟩]⟩
    ∃ t', t.writeText "out.css" "a\x7bb:c\x7d" = .ok t' ∧
      run t ["in.css", "--config", "o.json", "--skip-warnings", "-o", "out.css"] =
        (⟨0, "", "", some ("out.css", "a\x7bb:c\x7d")⟩, t') ∧
      t'.readText "out.css" = .ok "a\x7bb:c\x7d" := by
  intro t
  let c : Command := ⟨"in.css", some "out.css", some "o.json", [.skipWarnings]⟩
  have hin : t.find "in.css" = .ok (.file ["in.css"] "a\x7bb:c\x7d".toUTF8) := rfl
  have hopts : t.find "o.json" = .ok (.file ["o.json"] "[false]".toUTF8) := rfl
  have hout : t.find "out.css" = .ok (.vacant ["out.css"]) := rfl
  have hinput : t.readText c.input = .ok "a\x7bb:c\x7d" := by
    rw [FileTree.readText, FileTree.readBytes, hin]
    exact textOfBytes_toUTF8 _
  have hfile : t.readText "o.json" = .ok "[false]" := by
    rw [FileTree.readText, FileTree.readBytes, hopts]
    exact textOfBytes_toUTF8 _
  have hoptions : c.chosen t = .ok ⟨false, false, true⟩ := by
    simp only [Command.chosen, Command.configured, c, hfile]
    rfl
  have harguments : requestOf ["in.css", "--config", "o.json", "--skip-warnings", "-o", "out.css"] =
      .ok (.run c) := rfl
  have hprocess : process ⟨false, false, true⟩ "a\x7bb:c\x7d" = .ok ⟨"a\x7bb:c\x7d", [], 0⟩ := by
    decide +kernel
  have hwrite : t.writeText "out.css" "a\x7bb:c\x7d" =
      .ok (t.put ["out.css"] "a\x7bb:c\x7d".toUTF8) := by
    rw [FileTree.writeText, if_neg (by decide), hout]
  have hflags : ∀ f ∈ c.flags, f.isOption = true := by decide
  have hall := (run_processed hflags hinput hoptions).2 _ harguments
  obtain ⟨hrun, hread, -⟩ := (hall.1 _ hprocess).2 "out.css" _ rfl hwrite
  exact ⟨_, hwrite, hrun, hread⟩

end CommandLine
end GradientFallback
