import Stencil.Compile
import Stencil.Style.Sheet
import Stencil.Text.Numeral

/-! Options of the build command. -/
namespace Stencil.Command

structure BuildConfig where
  options : Options := {}
  jsPath : String := ""
  cssPath : String := ""
  toStdout : Bool := false
  verbose : Bool := false
deriving DecidableEq, Repr

inductive Flag where
  | amd | amdName | autoLoadCss | blockName | css | cssVar | indent | js | stdout | verbose
deriving DecidableEq, Repr

inductive FlagFault where
  | help
  | badSyntax (argument : String)
  | undefined (name : String)
  | needsArgument (name : String)
  | badSwitch (value name : String)
  | badValue (value name reason : String)
deriving DecidableEq, Repr

namespace Flag

def all : List Flag :=
  [.amd, .amdName, .autoLoadCss, .blockName, .css, .cssVar, .indent, .js, .stdout, .verbose]

def name : Flag → String
  | .amd => "amd"
  | .amdName => "amd-name"
  | .autoLoadCss => "auto-load-css"
  | .blockName => "block-name"
  | .css => "css"
  | .cssVar => "css-var"
  | .indent => "indent"
  | .js => "js"
  | .stdout => "stdout"
  | .verbose => "v"

def ofName? (name : String) : Option Flag := all.find? (·.name = name)

/-- A switch stands for itself; any other flag takes a value. -/
def isSwitch : Flag → Bool
  | .amd | .autoLoadCss | .stdout | .verbose => true
  | _ => false

def usage : Flag → String
  | .amd => "  -amd\n    \twrap the output in an AMD define call\n"
  | .amdName => "  -amd-name string\n    \tAMD module name\n"
  | .autoLoadCss => "  -auto-load-css\n    \tadd the CSS to the document at load\n"
  | .blockName => "  -block-name string\n    \tscoping class\n"
  | .css => "  -css string\n    \tCSS output path\n"
  | .cssVar => "  -css-var value\n    \toverride a style variable as NAME=VALUE\n"
  | .indent => "  -indent int\n    \tspaces per level in the JavaScript output\n"
  | .js => "  -js string\n    \tJavaScript output path\n"
  | .stdout => "  -stdout\n    \tprint the output instead of writing files\n"
  | .verbose => "  -v\tverbose output\n"

def switchValue? (value : String) : Option Bool :=
  if ["1", "t", "T", "TRUE", "true", "True"].contains value then some true
  else if ["0", "f", "F", "FALSE", "false", "False"].contains value then some false
  else none

def setSwitch (c : BuildConfig) (f : Flag) (on : Bool) : BuildConfig :=
  match f with
  | .amd => { c with options.amd := on }
  | .autoLoadCss => { c with options.autoLoadCss := on }
  | .stdout => { c with toStdout := on }
  | .verbose => { c with verbose := on }
  | _ => c

def setValue (c : BuildConfig) (f : Flag) (value : String) : Except String BuildConfig :=
  match f with
  | .amdName => .ok { c with options.amdName := value }
  | .blockName => .ok { c with options.blockName := value }
  | .css => .ok { c with cssPath := value }
  | .js => .ok { c with jsPath := value }
  | .cssVar =>
    match c.options.cssVars.assign value with
    | .ok values => .ok { c with options.cssVars := values }
    | .error bad => .error bad.message
  | .indent =>
    match Text.Numeral.read value with
    | .ok n => .ok { c with options.indent := n }
    | .error flaw => .error flaw.message
  | _ => .ok c

def set (c : BuildConfig) (f : Flag) (value : String) : Except FlagFault BuildConfig :=
  if f.isSwitch then
    match switchValue? value with
    | some on => .ok (f.setSwitch c on)
    | none => .error (.badSwitch value f.name)
  else match f.setValue c value with
    | .ok c => .ok c
    | .error reason => .error (.badValue value f.name reason)

end Flag

namespace FlagFault

def message : FlagFault → String
  | .help => "flag: help requested"
  | .badSyntax argument => "bad flag syntax: " ++ argument
  | .undefined name => "flag provided but not defined: -" ++ name
  | .needsArgument name => "flag needs an argument: -" ++ name
  | .badSwitch value name =>
    "invalid boolean value " ++ Text.Quoted.string value ++ " for -" ++ name ++ ": parse error"
  | .badValue value name reason =>
    "invalid value " ++ Text.Quoted.string value ++ " for flag -" ++ name ++ ": " ++ reason

def usage : String := "Usage of build:\n" ++ String.join (Flag.all.map Flag.usage)

/-- What is printed at once: the message, unless help was asked for, and the usage. -/
def notice : FlagFault → String
  | .help => usage
  | f => f.message ++ "\n" ++ usage

end FlagFault

/-- How an argument reads where a flag may stand. -/
inductive FlagWord where
  | operand
  | terminator
  | malformed
  | named (name : String) (value : Option String)
deriving DecidableEq, Repr

namespace FlagWord

def ofBody : List Char → FlagWord
  | [] => .malformed
  | c :: cs =>
    if c = '-' || c = '=' then .malformed
    else
      let name := cs.takeWhile (· ≠ '=')
      match cs.drop name.length with
      | _ :: value => .named (String.ofList (c :: name)) (some (String.ofList value))
      | [] => .named (String.ofList (c :: name)) none

/-- One dash or two start a flag; a dash alone is an operand. -/
def of (argument : String) : FlagWord :=
  match argument.toList with
  | ['-'] => .operand
  | ['-', '-'] => .terminator
  | '-' :: '-' :: body => ofBody body
  | '-' :: body => ofBody body
  | _ => .operand

end FlagWord

/-- Reads flags up to the first operand or the terminator; what is left are the operands. -/
def readFlags (c : BuildConfig) : List String → Except FlagFault (BuildConfig × List String)
  | [] => .ok (c, [])
  | argument :: rest =>
    match FlagWord.of argument with
    | .operand => .ok (c, argument :: rest)
    | .terminator => .ok (c, rest)
    | .malformed => .error (.badSyntax argument)
    | .named name value =>
      match Flag.ofName? name with
      | none => .error (if name = "help" || name = "h" then .help else .undefined name)
      | some f =>
        match value, f.isSwitch, rest with
        | some value, _, rest => do readFlags (← f.set c value) rest
        | none, true, rest => do readFlags (← f.set c "true") rest
        | none, false, value :: rest => do readFlags (← f.set c value) rest
        | none, false, [] => .error (.needsArgument name)

/-- Without an operand the working directory is built. -/
def readBuildArguments (arguments : List String) :
    Except FlagFault (BuildConfig × List String) := do
  let (c, paths) ← readFlags {} arguments
  return (c, if paths.isEmpty then ["."] else paths)

example : FlagWord.of "--js=a=b" = .named "js" (some "a=b") ∧ FlagWord.of "-" = .operand := by decide
example : (readBuildArguments ["-v", "--", "-x"]).toOption = some ({ verbose := true }, ["-x"]) := by
  decide

end Stencil.Command
