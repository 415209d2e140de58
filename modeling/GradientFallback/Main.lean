import GradientFallback.CommandLine.Run

/-! # The program -/
namespace GradientFallback

/-- Why the system could not read or write a file. -/
def fileErrorOf : IO.Error → FileError
  | .noFileOrDirectory _ _ _ => .notFound
  | .inappropriateType _ 21 _ => .isADirectory
  | .inappropriateType _ 20 _ => .notADirectory
  | e => .other (toString e)

def readFileText (path : String) : IO (Except FileError String) := do
  try
    return textOfBytes (← IO.FS.readBinFile path)
  catch e => return .error (fileErrorOf e)

def writeFileText (path content : String) : IO (Except FileError Unit) := do
  try
    IO.FS.writeBinFile path content.toUTF8
    return .ok ()
  catch e => return .error (fileErrorOf e)

open CommandLine

/-- The reply to a command, with its file written. -/
def runCommand (c : Command) : IO Reply := do
  let input ← readFileText c.input
  let config ←
    match c.config with
    | some path => pure (Options.ofFile (← readFileText path))
    | none => pure (.ok .default)
  let reply := c.reply input config
  match reply.write with
  | none => return reply
  | some (path, content) =>
    match ← writeFileText path content with
    | .ok _ => return reply
    | .error e => return reply.unwritten path e

end GradientFallback

open GradientFallback CommandLine in
def main (arguments : List String) : IO UInt32 := do
  let reply ←
    match requestOf arguments with
    | .error e => pure (usageReply e)
    | .ok .version => pure (Reply.success versionText "")
    | .ok .help => pure (Reply.success helpText "")
    | .ok (.run c) => runCommand c
  IO.eprint reply.stderr
  IO.print reply.stdout
  return UInt32.ofNat reply.code
