import GradientFallback.CommandLine.Arguments
import GradientFallback.CommandLine.Snippet
import GradientFallback.Files.Fixture
import GradientFallback.Stylesheet.Outline

/-! # The command line

A run reads a stylesheet, gives its rules their filters, and writes the stylesheet to the standard
output or to a file.  Warnings and errors go to the error output.  What a run answers depends only
on its arguments and on the contents of the files it names.
-/
namespace GradientFallback
namespace CommandLine

/-- What a run ends with. -/
structure Reply where
  code : Nat
  stdout : String
  stderr : String
  /-- The path of a file to write and its content. -/
  write : Option (String × String)
  deriving DecidableEq

def programName : String := "filter-gradient"

def versionText : String := programName ++ " 0.1.0\n"

def usageText : String := "Usage: " ++ programName ++ " [OPTIONS] <input>\n"

def helpText : String :=
  "Adds legacy gradient filters next to CSS linear gradients\n\n" ++ usageText ++
    "\nArguments:\n  <input>  The stylesheet to transform\n\nOptions:\n" ++
    "  -o, --output <output>    Write the stylesheet to this file instead of stdout\n" ++
    "      --config <config>    JSON file with transform options\n" ++
    "      --no-angle-fallback  Skip gradients whose direction can only be approximated\n" ++
    "      --skip-multi-color   Skip gradients with more than two color stops\n" ++
    "      --skip-warnings      Don't report any warnings\n" ++
    "      --tokens             Just print the tokens\n" ++
    "      --ast                Print the transformed stylesheet as a tree instead of CSS\n" ++
    "      --ignore-errors      Ignore parse errors\n" ++
    "  -d, --debug              Enable debug logging\n" ++
    "  -h, --help               Print help\n" ++
    "  -V, --version            Print version\n"

/-- Numbered causes, one a line. -/
def causeLines (number : Nat) : List String → String
  | [] => ""
  | cause :: causes =>
    "    " ++ toString number ++ ": " ++ cause ++ "\n" ++ causeLines (number + 1) causes

/-- An error message with its causes, the last cause being the first thing that went wrong. -/
def errorText (message : String) (causes : List String) : String :=
  "Error: " ++ message ++ "\n" ++
    match causes with
    | [] => ""
    | [cause] => "\nCaused by:\n    " ++ cause ++ "\n"
    | causes => "\nCaused by:\n" ++ causeLines 0 causes

namespace Reply

def success (stdout stderr : String) : Reply := ⟨0, stdout, stderr, none⟩

def failure (stderr : String) : Reply := ⟨1, "", stderr, none⟩

/-- The reply when the file could not be written. -/
def unwritten (r : Reply) (path : String) (e : FileError) : Reply :=
  ⟨1, r.stdout, r.stderr ++ errorText ("writing " ++ path) [e.message], none⟩

end Reply

def usageReply (e : UsageError) : Reply :=
  ⟨2, "", "error: " ++ e.message ++ "\n\n" ++ usageText ++ "\nFor more information, try '--help'.\n",
    none⟩

/-- The tokens of a stylesheet, one a line, with their places. -/
def tokenLines (css : String) : String :=
  String.join ((Token.all .origin (unifyLineEnds css.toList)).map fun t =>
    t.location.bracketed ++ " " ++ t.kind.display ++ "\n")

def configFailure (path : String) : OptionsError → String
  | .unreadable e =>
    errorText ("loading " ++ path) ["io error: " ++ e.message, e.message]
  | .malformed => errorText ("loading " ++ path) ["json error: invalid options", "invalid options"]

namespace Command

/-- The options of a file, changed by the flags. -/
def options (c : Command) (o : Options) : Options :=
  ⟨o.angleFallback && !c.has .noAngleFallback, o.skipMultiColor || c.has .skipMultiColor,
    o.skipWarnings || c.has .skipWarnings⟩

def parseConfig (c : Command) : ParseConfig := ⟨.origin, some c.input, c.has .ignoreErrors⟩

/-- Warnings, one a line, with the name of the input. -/
def warnings (c : Command) (ds : List Diagnostic) : String :=
  String.join (ds.map fun d => c.input ++ ":" ++ d.text ++ "\n")

/-- The reply for a stylesheet that has been read, with the given options. -/
def transformed (c : Command) (o : Options) (s : Stylesheet) : Reply :=
  let (result, report) := s.transform o
  let shown := if c.has .ast then result.outline else result.print
  let stderr := c.warnings report.diagnostics
  match c.output with
  | some path => ⟨0, "", stderr, some (path, shown)⟩
  | none => .success shown stderr

/-- The reply when the stylesheet cannot be parsed. -/
def rejected (c : Command) (css : String) (e : ParseError) : Reply :=
  .failure (snippet css e.location ++ errorText (c.input ++ ": " ++ e.problem.text) [])

/-- The reply, from what reading the input and the options gave. -/
def reply (c : Command) (input : Except FileError String) (config : Except OptionsError Options) :
    Reply :=
  match input with
  | .error e => .failure (errorText ("reading " ++ c.input) [e.message])
  | .ok css =>
    if c.has .tokens then .success (tokenLines css) ""
    else
      match config with
      | .error e => .failure (configFailure (c.config.getD "") e)
      | .ok o =>
        match Stylesheet.parse c.parseConfig css with
        | .error e => c.rejected css e
        | .ok s => c.transformed (c.options o) s

end Command

/-- A run on the files of a tree: the reply, and the tree behind the run. -/
def run (t : FileTree) (arguments : List String) : Reply × FileTree :=
  match requestOf arguments with
  | .error e => (usageReply e, t)
  | .ok .version => (.success versionText "", t)
  | .ok .help => (.success helpText "", t)
  | .ok (.run c) =>
    let config :=
      match c.config with
      | some path => Options.ofFile (t.readText path)
      | none => .ok .default
    let reply := c.reply (t.readText c.input) config
    match reply.write with
    | none => (reply, t)
    | some (path, content) =>
      match t.writeText path content with
      | .ok t => (reply, t)
      | .error e => (reply.unwritten path e, t)

end CommandLine
end GradientFallback
