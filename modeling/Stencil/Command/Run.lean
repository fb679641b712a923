import Stencil.Command.Build

/-! The commands. -/
namespace Stencil.Command

def version : String := "0.1.0"

def usage : String :=
"mft - compiler for marafet templates

Usage:
  mft <command> [options] [path...]

Commands:
  build       Compile .mft files to JavaScript and CSS
  check       Check .mft files without writing output
  tokens      Print the token stream of a .mft file
  version     Print version information
  help        Show this help message

Build options:
  -v                    Verbose output
  -block-name NAME      Scoping class (default: file name without extension)
  -amd                  Wrap the output in an AMD define call
  -amd-name NAME        AMD module name (default: path without extension)
  -auto-load-css        Add the CSS to the document when the module runs
  -css-var NAME=VALUE   Override a style variable (repeatable)
  -indent N             Spaces per level in the JavaScript output (default 4)
  -js PATH              JavaScript output path (single input only)
  -css PATH             CSS output path (single input only)
  -stdout               Print the output instead of writing files

Examples:
  mft build ./...                       Recursively compile all .mft files
  mft build -amd -auto-load-css ./ui    Self-contained AMD modules
  mft build -css-var fg=#333 card.mft   Override a style variable
  mft check ./...                       Check syntax of all .mft files
  mft tokens card.mft                   Dump tokens for debugging
"

def checkFile (fs : FileSet) (path : String) : Except CommandFault Unit :=
  match source fs path with
  | .error fault => .error fault
  | .ok text =>
    match Template.read path text with
    | .error fault => .error (.source fault)
    | .ok _ => .ok ()

def isVerboseWord (argument : String) : Bool := argument = "-v" || argument = "--verbose"

/-- Reads templates and reports their faults. The word for verbose output may stand anywhere. -/
def check (fs : FileSet) (arguments : List String) : Outcome :=
  let verbose := arguments.any isVerboseWord
  let paths := arguments.filter (!isVerboseWord ·)
  match someInputs fs (if paths.isEmpty then ["."] else paths) with
  | .error fault => Outcome.failed fault { files := fs }
  | .ok files =>
    let progress := if verbose then
        s!"Checking {files.length} {templateExtension} file(s)\n" ++
          String.join (files.map fun path => "Checking " ++ path ++ "\n")
      else ""
    conclude (files.map (checkFile fs))
      (if verbose then s!"All {files.length} file(s) passed checks\n" else "")
      { files := fs, stdout := progress.toUTF8 }

/-- A token with its place; a line break is shown without its text. -/
def tokenLine (t : Token) : String :=
  let literal := if t.literal.isEmpty || t.kind = .newline then "" else "\t" ++ t.literal
  s!"{t.line}:{t.column}\t" ++ t.kind.name ++ literal ++ "\n"

def tokens (fs : FileSet) (arguments : List String) : Outcome :=
  match arguments with
  | [path] =>
    match source fs path with
    | .error fault => Outcome.failed fault { files := fs }
    | .ok text =>
      let scan := Scan.of path text
      let listed := String.join (scan.tokens.map tokenLine)
      match scan.ending with
      | .eof t => { files := fs, stdout := (listed ++ tokenLine t).toUTF8 }
      | .fault _ fault => Outcome.failed (.source fault) { files := fs, stdout := listed.toUTF8 }
  | _ => Outcome.failed .tokensUsage { files := fs }

/-- Runs a command on the files of the working directory. -/
def run (j : Journal) (fs : FileSet) : List String → Outcome
  | [] => { exitCode := 1, stdout := usage.toUTF8, files := fs }
  | command :: arguments =>
    match command with
    | "build" => build j fs arguments
    | "check" => check fs arguments
    | "tokens" => tokens fs arguments
    | "version" => { stdout := ("mft version " ++ version ++ "\n").toUTF8, files := fs }
    | "help" | "-h" | "--help" => { stdout := usage.toUTF8, files := fs }
    | _ =>
      { exitCode := 1, stdout := usage.toUTF8, stderr := "unknown command: " ++ command ++ "\n\n"
        files := fs }

end Stencil.Command
