import GradientFallback.Text.Fields

/-! # File trees

A file tree holds the files below a working directory.  A directory is there when a file below it
is.  Paths are followed step by step from the working directory.  They may lead out of it, to
directories in which nothing is known but what is written there.
-/
namespace GradientFallback

/-- Why a file cannot be read or written. -/
inductive FileError where
  | notFound
  | notADirectory
  | isADirectory
  | nameTooLong
  /-- The content is no text. -/
  | notText
  /-- Any other reason, in the words of the system. -/
  | other (message : String)
  deriving DecidableEq

def FileError.message : FileError → String
  | notFound => "No such file or directory (os error 2)"
  | notADirectory => "Not a directory (os error 20)"
  | isADirectory => "Is a directory (os error 21)"
  | nameTooLong => "File name too long (os error 36)"
  | notText => "stream did not contain valid UTF-8"
  | other message => message

/-- The text of a file with the given content. -/
def textOfBytes (content : ByteArray) : Except FileError String :=
  match String.fromUTF8? content with
  | some text => .ok text
  | none => .error .notText

/-- A file: the names on the way to it from the working directory and its content.  The way to a
file that is not below the working directory begins with a step out of it. -/
structure File where
  path : List String
  content : ByteArray

def File.isBelow (f : File) : Bool := f.path.head? != some ".." && f.path.head? != some "/"

structure FileTree where
  files : List File

namespace FileTree

/-- What a path leads to. -/
inductive Place where
  | file (path : List String) (content : ByteArray)
  | directory (path : List String)
  /-- A directory that is not below the working directory, and the way to it. -/
  | outside (path : List String)
  /-- No file, but a directory where one could be. -/
  | vacant (path : List String)

/-- The steps of a path. -/
def stepsOf (path : String) : List String := (cutAt (· == '/') path.toList).map String.ofList

/-- The longest name of a file, in bytes. -/
def longestName : Nat := 255

/-- The longest path, in bytes. -/
def longestPath : Nat := 4095

def lookup (t : FileTree) (path : List String) : Place :=
  match t.files.find? fun f => f.path = path with
  | some f => .file path f.content
  | none => if t.files.any fun f => path.isPrefixOf f.path then .directory path else .vacant path

/-- Follows a name into a directory. -/
def enter (t : FileTree) (path : List String) (name : String) : Except FileError Place :=
  if name.utf8ByteSize > longestName then .error .nameTooLong else .ok (t.lookup (path ++ [name]))

/-- Follows one step of a path. -/
def step (t : FileTree) (p : Place) (name : String) : Except FileError Place :=
  match p with
  | .file _ _ => .error .notADirectory
  | .vacant _ => .error .notFound
  | .outside path =>
    if name = "" ∨ name = "." then .ok p
    else if name = ".." then .ok (.outside (path ++ [name]))
    else t.enter path name
  | .directory path =>
    if name = "" ∨ name = "." then .ok p
    else if name = ".." then .ok (if path = [] then .outside [name] else .directory path.dropLast)
    else t.enter path name

/-- Follows a path from the working directory, or from outside if it begins with a slash. -/
def find (t : FileTree) (path : String) : Except FileError Place :=
  if path = "" then .error .notFound
  else if path.utf8ByteSize > longestPath then .error .nameTooLong
  else
    let start : Place := if path.toList.head? = some '/' then .outside ["/"] else .directory []
    (stepsOf path).foldlM t.step start

def readBytes (t : FileTree) (path : String) : Except FileError ByteArray :=
  match t.find path with
  | .error e => .error e
  | .ok (.file _ content) => .ok content
  | .ok (.directory _) => .error .isADirectory
  | .ok (.outside _) => .error .isADirectory
  | .ok (.vacant _) => .error .notFound

def readText (t : FileTree) (path : String) : Except FileError String :=
  match t.readBytes path with
  | .error e => .error e
  | .ok content => textOfBytes content

/-- Whether a path leads to a file or a directory. -/
def pathExists (t : FileTree) (path : String) : Bool :=
  match t.find path with
  | .ok (.file _ _) => true
  | .ok (.directory _) => true
  | .ok (.outside _) => true
  | _ => false

/-- The tree with a new content for a file, which may be new itself. -/
def put (t : FileTree) (path : List String) (content : ByteArray) : FileTree :=
  if t.files.any fun f => f.path = path then
    ⟨t.files.map fun f => if f.path = path then ⟨path, content⟩ else f⟩
  else ⟨t.files ++ [⟨path, content⟩]⟩

/-- A path to the directory in which the last name of a path stands. -/
def directoryOf (path : String) : String :=
  String.ofList ((path.toList.reverse.dropWhile (· == '/')).dropWhile (· != '/')).reverse ++ "."

/-- Writes a file.  A path that ends with a slash is that of a directory, whatever its last name
is. -/
def writeText (t : FileTree) (path text : String) : Except FileError FileTree :=
  if path.toList.getLast? = some '/' then
    if path.utf8ByteSize > longestPath then .error .nameTooLong
    else
      match t.find (directoryOf path) with
      | .error e => .error e
      | .ok _ => .error .isADirectory
  else
    match t.find path with
    | .error e => .error e
    | .ok (.file p _) => .ok (t.put p text.toUTF8)
    | .ok (.vacant p) => .ok (t.put p text.toUTF8)
    | .ok _ => .error .isADirectory

/-- The ways from a directory to all files below it. -/
def filesBelow (t : FileTree) (path : String) : List String :=
  match t.find path with
  | .ok (.directory root) =>
    (t.files.filter fun f => f.isBelow && root.isPrefixOf f.path).map fun f =>
      "/".intercalate (f.path.drop root.length)
  | _ => []

end FileTree
end GradientFallback
