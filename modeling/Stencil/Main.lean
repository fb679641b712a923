import Std.Time.Format
import Stencil.Command.Run

/-! The program: it reads what its arguments name, runs the command and writes what has changed. -/
namespace Stencil

namespace Files

def entries? (path : String) : IO (Option (Array IO.FS.DirEntry)) := do
  try
    let place : IO.FS.DirEntry := ⟨path, "."⟩
    return some (← place.path.readDir)
  catch _ => return none

def content? (path : String) : IO (Option ByteArray) := do
  try return some (← IO.FS.readBinFile path) catch _ => return none

/-- Adds a file or a directory. Of a directory the files are read, and, if asked for, those below. -/
partial def load (deep : Bool) (fs : FileSet) (path : String) : IO FileSet := do
  match ← entries? path with
  | none =>
    match ← content? path with
    | none => return fs
    | some content => return fs.put (Location.ofPath path) content
  | some entries =>
    let mut fs := { fs with directories := fs.directories ++ [Location.ofPath path] }
    for entry in entries do
      let inner := path ++ "/" ++ entry.fileName
      if deep || (← entries? inner).isNone then fs ← load deep fs inner
      else fs := { fs with directories := fs.directories ++ [Location.ofPath inner] }
    return fs

/-- The working directory, what the arguments name and the directories around that. -/
def around (arguments : List String) : IO FileSet := do
  let mut fs ← load false {} "."
  for argument in arguments do
    match Command.recursiveRoot? argument with
    | some root => fs ← load true fs root
    | none =>
      if (← entries? (Path.parent argument)).isSome then
        fs := { fs with directories := fs.directories ++ [Location.ofPath (Path.parent argument)] }
      fs ← load false fs argument
  return fs

def pathOf : Location → String
  | "/" :: names => "/" ++ "/".intercalate names
  | names => "/".intercalate names

def save (before after : FileSet) : IO Unit := do
  for place in after.directories do
    unless before.isDirectory place do IO.FS.createDirAll (pathOf place)
  for (place, content) in before.changes after do
    IO.FS.writeBinFile (pathOf place) content

end Files

namespace Command

/-- The time of day. -/
def clock : IO String := do
  return (← Std.Time.PlainDateTime.now).time.format "HH:mm:ss.SSS"

/-- The log is kept in the file that the environment names. -/
def journal : IO Journal := do
  match ← IO.getEnv "MFT_DEBUG" with
  | none => return {}
  | some path => return { target := some path, stamp := ← clock }

/-- Runs a command on the files there are. -/
def execute (arguments : List String) : IO UInt32 := do
  let journal ← journal
  let before ← Files.around (arguments ++ journal.target.toList)
  let outcome := run journal before arguments
  Files.save before outcome.files
  (← IO.getStdout).write outcome.stdout
  IO.eprint outcome.stderr
  return outcome.exitCode.toUInt32

end Command
end Stencil

def main (arguments : List String) : IO UInt32 := Stencil.Command.execute arguments
