import GradientFallback.Fallback.Transform
import GradientFallback.Files.Tree

/-! # Fixtures

A fixture is a stylesheet in a file with the ending `.css`, what is expected of it in a file with
the ending `.expect.css`, and options in a file with the ending `.json`, which may be missing.
-/
namespace GradientFallback

/-- Why options cannot be had from a file. -/
inductive OptionsError where
  | unreadable (e : FileError)
  | malformed
  deriving DecidableEq

/-- The options in a file with the given content. -/
def Options.ofFile : Except FileError String → Except OptionsError Options
  | .error e => .error (.unreadable e)
  | .ok text =>
    match Options.parse? text with
    | some o => .ok o
    | none => .error .malformed

structure Fixture where
  name : String
  input : String
  expected : String
  options : Options

inductive FixtureError where
  | input (name : String)
  | expectation (name : String)
  | options (e : OptionsError)

def FixtureError.message : FixtureError → String
  | input name => "reading input of fixture " ++ name
  | expectation name => "reading expectation of fixture " ++ name
  | options (.unreadable e) => "io error: " ++ e.message
  | options .malformed => "json error"

namespace Fixture

/-- Where fixtures are unless something else is said. -/
def defaultRoot : String := "./tests/data/fixtures"

def inputEnding : List Char := ".css".toList

def expectEnding : List Char := ".expect.css".toList

/-- A path that is followed from another one. -/
def joinPath (root path : String) : String :=
  if path.toList.head? = some '/' ∨ root = "" then path
  else if root.toList.getLast? = some '/' then root ++ path
  else root ++ "/" ++ path

def pathOf (root name : String) (ending : List Char) : String :=
  joinPath root (name ++ String.ofList ending)

def loadOptions (t : FileTree) (path : String) : Except OptionsError Options :=
  if t.pathExists path then Options.ofFile (t.readText path) else .ok .default

/-- Loads the fixture with the given name from below `root`. -/
def load (t : FileTree) (root name : String) : Except FixtureError Fixture :=
  match t.readText (pathOf root name inputEnding) with
  | .error _ => .error (.input name)
  | .ok input =>
    match t.readText (pathOf root name expectEnding) with
    | .error _ => .error (.expectation name)
    | .ok expected =>
      match loadOptions t (pathOf root name ".json".toList) with
      | .error e => .error (.options e)
      | .ok o => .ok ⟨name, input, expected, o⟩

def process (f : Fixture) : Except ParseError Processed := GradientFallback.process f.options f.input

/-- The name of the fixture whose input is in the given file. -/
def nameOf? (path : String) : Option String :=
  let cs := path.toList
  if expectEnding.isSuffixOf cs then none
  else if inputEnding.isSuffixOf cs then
    some (String.ofList (cs.take (cs.length - inputEnding.length)))
  else none

/-- The names of all fixtures, in order. -/
def names (t : FileTree) : List String :=
  ((t.filesBelow defaultRoot).filterMap nameOf?).mergeSort fun a b => !(b < a)

/-- All fixtures that can be loaded. -/
def all (t : FileTree) : List Fixture :=
  (names t).filterMap fun name => (load t defaultRoot name).toOption

end Fixture
end GradientFallback
