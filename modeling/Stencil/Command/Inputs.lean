import Stencil.Command.Flags
import Stencil.Files.FileSet

/-! The inputs of a command, and the faults that a command ends with. -/
namespace Stencil.Command

def templateExtension : String := ".mft"

inductive CommandFault where
  | flags (fault : FlagFault)
  | walking (root : String) (fault : PathFault)
  | status (fault : PathFault)
  | noInputs
  | severalInputs (count : Nat)
  | reading (fault : PathFault)
  | writing (fault : PathFault)
  | source (fault : Fault)
  | failures (count : Nat)
  | tokensUsage
deriving DecidableEq, Repr

def CommandFault.message : CommandFault → String
  | .flags fault => fault.message
  | .walking root fault => "walking " ++ root ++ ": " ++ fault.message
  | .status fault => "stat " ++ fault.path ++ ": " ++ fault.message
  | .noInputs => "no " ++ templateExtension ++ " files found"
  | .severalInputs count => s!"-js and -css need exactly one input, got {count}"
  | .reading fault => "reading file: " ++ fault.message
  | .writing fault => "writing file: " ++ fault.message
  | .source fault => fault.report.text
  | .failures count => s!"{count} file(s) had errors"
  | .tokensUsage => "tokens needs exactly one file"

def CommandFault.line (f : CommandFault) : String := "error: " ++ f.message ++ "\n"

def isTemplate (path : String) : Bool := Path.hasSuffix path templateExtension

/-- A path that ends in `/...` stands for all files below it. -/
def recursiveRoot? (path : String) : Option String :=
  if Path.hasSuffix path "/..." then
    let root := Path.dropSuffix path "/..."
    some (if root.isEmpty then "." else root)
  else none

/-- The templates that a path stands for: itself, those of a directory, or those below it. -/
def inputsAt (fs : FileSet) (path : String) : Except CommandFault (List String) :=
  match recursiveRoot? path with
  | some root =>
    match fs.look root with
    | .error e => .error (.walking root ⟨"lstat", root, e⟩)
    | .ok (_, .file _) => .ok ([root].filter isTemplate)
    | .ok (place, .directory) => .ok (((fs.under place).map (Path.join root)).filter isTemplate)
  | none =>
    match fs.look path with
    | .error e => .error (.status ⟨"stat", path, e⟩)
    | .ok (_, .file _) => .ok ([path].filter isTemplate)
    | .ok (place, .directory) =>
      .ok (((fs.listing place).filter isTemplate).map fun name => Path.join path [name])

def inputs (fs : FileSet) : List String → Except CommandFault (List String)
  | [] => .ok []
  | path :: paths => do
    let first ← inputsAt fs path
    return first ++ (← inputs fs paths)

/-- The inputs of a command that needs at least one. -/
def someInputs (fs : FileSet) (paths : List String) : Except CommandFault (List String) := do
  let files ← inputs fs paths
  if files.isEmpty then throw .noInputs else return files

/-- The text of a template. -/
def source (fs : FileSet) (path : String) : Except CommandFault String :=
  match fs.read path with
  | .error fault => .error (.reading fault)
  | .ok content => .ok (Text.decode content)

/-- Where the code and the style sheet of an input go. -/
def outputPaths (input : String) : String × String :=
  let base := Path.dropSuffix input templateExtension
  (base ++ ".js", base ++ ".css")

end Stencil.Command
