import Stencil.Expr.Format
import Stencil.Markup.Reading
import Stencil.Template.Basic

/-! Reading templates. Only the first fault of a source is reported, and with it no template. -/
namespace Stencil

open Stencil.Parser

def ImportName.parser : Parser ImportName := do
  let name ← expect .identifier
  if ← accept (.keyword .«as») then
    let renamed ← expect .identifier
    return ⟨name.literal, some renamed.literal⟩
  else return ⟨name.literal, none⟩

namespace Block

def importSource : Parser String := do
  let _ ← expect (.keyword .«from»)
  let source ← stringValue
  let _ ← expect .newline
  return source

/-- What follows the word `import` at a position. -/
def importParser (position : Position) : Parser Block := do
  if ← accept (.opening .brace) then
    let names ← commaList (·.kind = .identifier) ImportName.parser
    let _ ← expect (.closing .brace)
    return .importNames names (← importSource) position
  else
    let name ← expect .identifier
    return .importModule name.literal (← importSource) position

def parser : Parser Block := do
  let position ← here
  match ← kind with
  | .keyword .css =>
    advance
    return .style (← StyleBlock.parser position)
  | .keyword .html =>
    advance
    return .markup (← MarkupBlock.parser position)
  | .identifier => return .markup (← MarkupBlock.parser position)
  | .keyword .«import» =>
    advance
    importParser position
  | _ => expected .block

end Block

def Template.parser : Parser Template := do
  let position ← here
  return ⟨← many (·.kind ≠ .eof) Block.parser, position⟩

/-- A source that is being read: what is left of its tokens, and the fault that ended the reading. -/
structure Session where
  reading : Reading
  tokens : List Token
  fault : Option Fault := none

namespace Session

def start (file source : String) : Session :=
  let scan := Scan.of file source
  { reading := ⟨file, scan.ending, Format.split⟩, tokens := scan.tokens }

/-- Reads all blocks that are left. After a fault every reading reports it again. -/
def read (s : Session) : Except Fault Template × Session :=
  match s.fault with
  | some fault => (.error fault, s)
  | none =>
    match Template.parser s.reading s.tokens with
    | .ok (template, rest) => (.ok template, { s with tokens := rest })
    | .error fault => (.error fault, { s with fault := some fault })

def faults (s : Session) : Report := ⟨s.fault.toList.map Fault.diagnostic⟩

end Session

def Template.read (file source : String) : Except Fault Template :=
  (Session.start file source).read.1

end Stencil
