import Stencil.Literal
import Stencil.Template.Basic
import Stencil.Text.CharClass

/-! The style sheet of a template. A property value names a variable of its block where a whole run of
word characters, dots and dashes is its name; a run with a dot in it, such as `1.5em`, names none. The
sheet is made of bytes, as the value of a variable may start or end within a character. -/
namespace Stencil

namespace Literal

/-- The text without its first and last byte, which may cut a character. -/
def stripped (literal : String) : ByteArray :=
  literal.toUTF8.extract 1 (literal.utf8ByteSize - 1)

/-- The value of a literal, or what stands between its ends if it has none. -/
def looseValue (literal : String) : ByteArray :=
  match value literal with
  | .ok text => text.toUTF8
  | .error _ => stripped literal

end Literal

/-- Values by name; an entry in front hides those behind it. -/
abbrev Values := List (String × String)

namespace Values

/-- Replaces or adds a value; the names stay in order. -/
def put (name value : String) : Values → Values
  | [] => [(name, value)]
  | (other, old) :: rest =>
    if other = name then (name, value) :: rest
    else if name < other then (name, value) :: (other, old) :: rest
    else (other, old) :: put name value rest

/-- A text that is no assignment. -/
structure BadAssignment where
  text : String
deriving DecidableEq, Repr

def BadAssignment.message (b : BadAssignment) : String :=
  "want NAME=VALUE, got " ++ Text.Quoted.string b.text

/-- A name that is not empty, an equals sign and a value. -/
def assign (values : Values) (text : String) : Except BadAssignment Values :=
  let name := text.toList.takeWhile (· ≠ '=')
  match text.toList.drop name.length with
  | '=' :: value =>
    if name.isEmpty then .error ⟨text⟩
    else .ok (values.put (String.ofList name) (String.ofList value))
  | _ => .error ⟨text⟩

def text (values : Values) : String :=
  ",".intercalate (values.map fun (name, value) => name ++ "=" ++ value)

example : text (put "a" "3" (put "a" "1" (put "b" "2" []))) = "a=3,b=2" := by decide

end Values

namespace Param

/-- A given value wins over the default. -/
def value? (given : Values) (p : Param) : Option ByteArray :=
  ((given.lookup p.name).map String.toUTF8).or (p.fallback.map Literal.looseValue)

/-- A default of a single byte that is asked for has nothing between its ends. -/
def isBroken (given : Values) (p : Param) : Bool :=
  (given.lookup p.name).isNone && p.fallback.any (·.utf8ByteSize = 1)

end Param

/-- The value of a variable in a block. Of several parameters with one name the last with a value counts. -/
def StyleBlock.value? (given : Values) (b : StyleBlock) (name : String) : Option ByteArray :=
  b.params.reverse.findSome? fun p => if p.name = name then p.value? given else none

namespace Substitution

def isRunChar (c : Char) : Bool := Text.isWordChar c || c == '.' || c == '-'

/-- A run that may name a variable. -/
def isVariable (run : List Char) : Bool :=
  run.head?.any Text.isLetter && run.all (· ≠ '.')

def replaceRun (value? : String → Option ByteArray) (run : List Char) : ByteArray :=
  let text := String.ofList run
  if isVariable run then (value? text).getD text.toUTF8 else text.toUTF8

/-- Goes through a text with the run before it, last character first. -/
def substituteFrom (value? : String → Option ByteArray) (run : List Char) :
    List Char → List ByteArray
  | [] => [replaceRun value? run.reverse]
  | c :: cs =>
    if isRunChar c then substituteFrom value? (c :: run) cs
    else replaceRun value? run.reverse :: c.toString.toUTF8 :: substituteFrom value? [] cs

end Substitution

/-- Replaces the names of variables in a text. -/
def substitute (value? : String → Option ByteArray) (text : String) : ByteArray :=
  Text.joinBytes (Substitution.substituteFrom value? [] text.toList)

def Property.text (value? : String → Option ByteArray) (p : Property) : ByteArray :=
  ("    " ++ p.name ++ ": ").toUTF8 ++ substitute value? p.value ++ ";\n".toUTF8

def Rule.text (value? : String → Option ByteArray) (r : Rule) : ByteArray :=
  (", ".intercalate (r.selectors.map Selector.text) ++ " \x7b\n").toUTF8 ++
    Text.joinBytes (r.properties.map (Property.text value?)) ++ "\x7d\n\n".toUTF8

def StyleBlock.text (given : Values) (b : StyleBlock) : ByteArray :=
  Text.joinBytes (b.rules.map (Rule.text (b.value? given)))

namespace Template

/-- The rules of all style blocks. Given values count only for variables that a block declares. -/
def styleText (given : Values) (t : Template) : ByteArray :=
  Text.joinBytes (t.styleBlocks.map (StyleBlock.text given))

/-- No style sheet can be made if a default is broken. -/
def styleText? (given : Values) (t : Template) : Option ByteArray :=
  if t.styleBlocks.any (·.params.any (Param.isBroken given)) then none
  else some (t.styleText given)

end Template

end Stencil
