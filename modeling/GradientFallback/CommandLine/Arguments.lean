/-! # Arguments of the command line

The arguments are read from left to right.  The first mistake counts, unless the version or the
help was asked for before it.
-/
namespace GradientFallback
namespace CommandLine

/-- What is either said or not. -/
inductive Flag where
  | noAngleFallback
  | skipMultiColor
  | skipWarnings
  | tokens
  | ast
  | ignoreErrors
  | debug
  deriving DecidableEq

/-- What needs a value. -/
inductive Setting where
  | output
  | config
  deriving DecidableEq

inductive UsageError where
  | unknownOption (text : String)
  | missingValue (s : Setting)
  /-- A value for what needs none. -/
  | unexpectedValue (option : String)
  | repeatedFlag (f : Flag)
  | repeatedSetting (s : Setting)
  /-- A second input. -/
  | unexpectedArgument (text : String)
  | missingInput
  deriving DecidableEq

def Flag.name : Flag → String
  | noAngleFallback => "no-angle-fallback"
  | skipMultiColor => "skip-multi-color"
  | skipWarnings => "skip-warnings"
  | tokens => "tokens"
  | ast => "ast"
  | ignoreErrors => "ignore-errors"
  | debug => "debug"

def Setting.name : Setting → String
  | output => "output"
  | config => "config"

def Flag.all : List Flag :=
  [noAngleFallback, skipMultiColor, skipWarnings, tokens, ast, ignoreErrors, debug]

def Setting.all : List Setting := [output, config]

def UsageError.message : UsageError → String
  | unknownOption text => "unexpected argument '" ++ text ++ "' found"
  | missingValue s =>
    "a value is required for '--" ++ s.name ++ " <" ++ s.name ++ ">' but none was supplied"
  | unexpectedValue option => "unexpected value for '--" ++ option ++ "' found; no more were expected"
  | repeatedFlag f => "the argument '--" ++ f.name ++ "' cannot be used multiple times"
  | repeatedSetting s =>
    "the argument '--" ++ s.name ++ " <" ++ s.name ++ ">' cannot be used multiple times"
  | unexpectedArgument text => "unexpected argument '" ++ text ++ "' found"
  | missingInput => "the following required arguments were not provided:\n  <input>"

/-- What has been said so far. -/
structure Given where
  input : Option String
  output : Option String
  config : Option String
  flags : List Flag

/-- What is to be done with a stylesheet. -/
structure Command where
  input : String
  output : Option String
  config : Option String
  flags : List Flag

def Command.has (c : Command) (f : Flag) : Bool := c.flags.contains f

inductive Request where
  | version
  | help
  | run (c : Command)

namespace Given

def nothing : Given := ⟨none, none, none, []⟩

def addFlag (g : Given) (f : Flag) : Except UsageError Given :=
  if g.flags.contains f then .error (.repeatedFlag f) else .ok { g with flags := g.flags ++ [f] }

def set (g : Given) (s : Setting) (value : String) : Except UsageError Given :=
  match s, g.output, g.config with
  | .output, none, _ => .ok { g with output := some value }
  | .config, _, none => .ok { g with config := some value }
  | _, _, _ => .error (.repeatedSetting s)

def setInput (g : Given) (value : String) : Except UsageError Given :=
  match g.input with
  | none => .ok { g with input := some value }
  | some _ => .error (.unexpectedArgument value)

/-- What is to be done once all arguments have been read. -/
def request (g : Given) : Except UsageError Request :=
  match g.input with
  | some input => .ok (.run ⟨input, g.output, g.config, g.flags⟩)
  | none => .error .missingInput

end Given

/-- Where the reading of one argument leads. -/
inductive Reading where
  | done (g : Given)
  /-- The next argument is the value of a setting. -/
  | waiting (g : Given) (s : Setting)
  | asked (r : Request)

/-- Reads the letters behind a single hyphen. -/
def readLetters (g : Given) : List Char → Except UsageError Reading
  | [] => .ok (.done g)
  | 'V' :: _ => .ok (.asked .version)
  | 'h' :: _ => .ok (.asked .help)
  | 'd' :: cs =>
    match g.addFlag .debug with
    | .ok g => readLetters g cs
    | .error e => .error e
  | ['o'] => .ok (.waiting g .output)
  | 'o' :: '=' :: cs => (g.set .output (String.ofList cs)).map .done
  | 'o' :: cs => (g.set .output (String.ofList cs)).map .done
  | c :: _ => .error (.unknownOption (String.ofList ['-', c]))

/-- Reads what stands behind two hyphens: a name, perhaps with an equals sign and a value. -/
def readLong (g : Given) (cs : List Char) : Except UsageError Reading :=
  let name := String.ofList (cs.takeWhile (· != '='))
  let value := (cs.dropWhile (· != '=')).tail?
  match Setting.all.find? fun s => s.name = name, Flag.all.find? fun f => f.name = name with
  | some s, _ =>
    match value with
    | some v => (g.set s (String.ofList v)).map .done
    | none => .ok (.waiting g s)
  | none, some f =>
    if value.isSome then .error (.unexpectedValue name) else (g.addFlag f).map .done
  | none, none =>
    if name = "version" ∨ name = "help" then
      if value.isSome then .error (.unexpectedValue name)
      else .ok (.asked (if name = "version" then .version else .help))
    else .error (.unknownOption ("--" ++ name))

/-- Reads one argument that is not two hyphens alone. -/
def readArgument (g : Given) (argument : String) : Except UsageError Reading :=
  match argument.toList with
  | '-' :: '-' :: cs => readLong g cs
  | '-' :: c :: cs => readLetters g (c :: cs)
  | _ => (g.setInput argument).map .done

/-- Whether an argument can be the value of a setting. -/
def isValue (argument : String) : Bool :=
  argument.toList.head? != some '-' || argument == "-"

/-- Reads all arguments; behind two hyphens alone every one is an input. -/
def readArguments (g : Given) : List String → Except UsageError Request
  | [] => g.request
  | argument :: rest =>
    if argument = "--" then
      match rest.foldlM Given.setInput g with
      | .ok g => g.request
      | .error e => .error e
    else
      match readArgument g argument with
      | .error e => .error e
      | .ok (.asked r) => .ok r
      | .ok (.done g) => readArguments g rest
      | .ok (.waiting g s) =>
        match rest with
        | [] => .error (.missingValue s)
        | value :: rest =>
          if isValue value then
            match g.set s value with
            | .ok g => readArguments g rest
            | .error e => .error e
          else .error (.missingValue s)

/-- What the arguments ask for. -/
def requestOf (arguments : List String) : Except UsageError Request :=
  readArguments .nothing arguments

end CommandLine
end GradientFallback
