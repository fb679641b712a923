import Stencil.Command.Inputs
import Stencil.Command.Journal

/-! Building: templates are compiled and their outputs written or printed. -/
namespace Stencil.Command

/-- What a command leaves behind. -/
structure Outcome where
  exitCode : Nat := 0
  stdout : ByteArray := .empty
  stderr : String := ""
  files : FileSet

def Outcome.failed (fault : CommandFault) (o : Outcome) : Outcome :=
  { o with exitCode := 1, stderr := o.stderr ++ fault.line }

/-- What the log says about a compilation. -/
def compileMessages (o : Options) (path : String) : Except Fault Output → List String
  | .error fault => ["compile " ++ path ++ ": " ++ fault.report.text]
  | .ok out =>
    ["compile " ++ path ++ s!": parsed {out.template.blocks.length} block(s)",
      "compile " ++ path ++ ": block " ++ Text.Quoted.string (o.blockNameFor path) ++
        s!", {out.css.size} bytes css, {out.js.utf8ByteSize} bytes js"]

/-- The result for one input, what was printed meanwhile, and the files afterwards. -/
structure FileBuild where
  result : Except CommandFault Output
  printed : String := ""
  files : FileSet

/-- The code is written before the style sheet, and the style sheet only if there is one or a path
was given for it. -/
def writeOutputs (c : BuildConfig) (jsPath cssPath : String) (out : Output) (fs : FileSet) :
    Except CommandFault Output × FileSet :=
  match fs.write jsPath out.js.toUTF8 with
  | .error fault => (.error (.writing fault), fs)
  | .ok fs =>
    if out.css.isEmpty && c.cssPath.isEmpty then (.ok out, fs)
    else match fs.write cssPath out.css with
      | .error fault => (.error (.writing fault), fs)
      | .ok fs => (.ok out, fs)

def buildFile (c : BuildConfig) (j : Journal) (fs : FileSet) (path : String) : FileBuild :=
  match source fs path with
  | .error fault => { result := .error fault, files := fs }
  | .ok text =>
    let compiled := compile path text c.options
    let fs := j.logAll (compileMessages c.options path compiled) fs
    match compiled with
    | .error fault => { result := .error (.source fault), files := fs }
    | .ok out =>
      if c.toStdout then { result := .ok out, files := fs }
      else
        let jsPath := if c.jsPath.isEmpty then (outputPaths path).1 else c.jsPath
        let cssPath := if c.cssPath.isEmpty then (outputPaths path).2 else c.cssPath
        let fs := j.log ("build " ++ path ++ " -> " ++ jsPath) fs
        let (result, fs) := writeOutputs c jsPath cssPath out fs
        { result, files := fs
          printed := if c.verbose then "Processing " ++ path ++ " -> " ++ jsPath ++ "\n" else "" }

/-- Builds one input after the other. -/
def buildFiles (c : BuildConfig) (j : Journal) (fs : FileSet) :
    List String → List FileBuild × FileSet
  | [] => ([], fs)
  | path :: paths =>
    let first := buildFile c j fs path
    let (others, fs) := buildFiles c j first.files paths
    (first :: others, fs)

def failureLine {α : Type} : Except CommandFault α → String
  | .ok _ => ""
  | .error fault => fault.line

def failureCount {α : Type} (results : List (Except CommandFault α)) : Nat :=
  results.countP fun
    | .ok _ => false
    | .error _ => true

/-- Reports every failure, and at the end how many there were. -/
def conclude {α : Type} (results : List (Except CommandFault α)) (success : String)
    (o : Outcome) : Outcome :=
  let o := { o with stderr := o.stderr ++ String.join (results.map failureLine) }
  if failureCount results > 0 then o.failed (.failures (failureCount results))
  else { o with stdout := o.stdout ++ success.toUTF8 }

def printedOutput (c : BuildConfig) : Except CommandFault Output → ByteArray
  | .ok out => if c.toStdout then out.css ++ out.js.toUTF8 else .empty
  | .error _ => .empty

/-- The inputs of a build; a path for an output fits one input only. -/
def buildInputs (c : BuildConfig) (fs : FileSet) (paths : List String) :
    Except CommandFault (List String) := do
  let files ← someInputs fs paths
  if (!c.jsPath.isEmpty || !c.cssPath.isEmpty) && files.length ≠ 1 then
    throw (.severalInputs files.length)
  return files

/-- What a build has to do: how, and for which inputs. With nothing to do it ends at once. -/
def buildTask (fs : FileSet) (arguments : List String) :
    Except Outcome (BuildConfig × List String) :=
  match readBuildArguments arguments with
  | .error fault => .error (Outcome.failed (.flags fault) { stderr := fault.notice, files := fs })
  | .ok (c, paths) =>
    match buildInputs c fs paths with
    | .error fault => .error (Outcome.failed fault { files := fs })
    | .ok files => .ok (c, files)

/-- What is told of the inputs, in their own order. -/
def buildReport (c : BuildConfig) (files : List String) (builds : List FileBuild)
    (after : FileSet) : Outcome :=
  let results := builds.map (·.result)
  let found := if c.verbose then s!"Found {files.length} {templateExtension} file(s)\n" else ""
  conclude results
    (if c.verbose then s!"Successfully compiled {files.length} file(s)\n" else "")
    { files := after
      stdout := (found ++ String.join (builds.map (·.printed))).toUTF8 ++
        Text.joinBytes (results.map (printedOutput c)) }

/-- A build that works off its inputs in some way. -/
def buildWith (work : BuildConfig → List String → List FileBuild × FileSet) (fs : FileSet)
    (arguments : List String) : Outcome :=
  match buildTask fs arguments with
  | .error ended => ended
  | .ok (c, files) => buildReport c files (work c files).1 (work c files).2

def build (j : Journal) (fs : FileSet) (arguments : List String) : Outcome :=
  buildWith (fun c => buildFiles c j fs) fs arguments

end Stencil.Command
