import Stencil.Style.Basic
import Stencil.Text.Basic
import Stencil.Token.Parser

/-! Reading style blocks. -/
namespace Stencil

open Stencil.Parser

/-- A parameter whose name is a token of a kind, with an optional default. -/
def Param.parser (nameKind : TokenKind) : Parser Param := do
  let position ← here
  let name ← expect nameKind
  if ← accept .equals then
    let literal ← expect .string
    return ⟨name.literal, some literal.literal, position⟩
  else return ⟨name.literal, none, position⟩

/-- Parameters in parentheses, if there are any. -/
def Param.listParser (nameKind : TokenKind) : Parser (List Param) := do
  if ← accept (.opening .paren) then
    let params ← commaList (·.kind = nameKind) (Param.parser nameKind)
    let _ ← expect (.closing .paren)
    return params
  else return []

namespace Selector

/-- A dotted word: what stands before the first dot, and the other parts that are not empty. -/
def dotted (word : String) : String × List String :=
  match Text.split '.' word with
  | [] => ("", [])
  | first :: rest => (first, rest.filter (!·.isEmpty))

/-- Skips a token of a group in parentheses that is open; `depth` counts the groups inside it. -/
def groupStep (later : Nat → Parser Unit) (depth : Nat) : Parser Unit := do
  match ← kind, depth with
  | .opening .paren, _ =>
    advance
    later (depth + 1)
  | .closing .paren, 0 => advance
  | .closing .paren, outer + 1 =>
    advance
    later outer
  | .eof, _ | .error, _ => expected (.kind (.closing .paren))
  | _, _ =>
    advance
    later depth

def groupRest : Nat → Nat → Parser Unit
  | 0, _ => exhausted (return)
  | rounds + 1, depth => round fun again => groupStep (fun d => again (groupRest rounds d)) depth

/-- The condition of a class plays no part in a style sheet. -/
def skipGroup : Parser Unit := do
  let _ ← expect (.opening .paren)
  bounded fun rounds => groupRest rounds 0

def classSuffix : Parser (List String) := do
  advance
  let word ← expect .styleWord
  if ← accept .question then skipGroup
  let (first, rest) := dotted word.literal
  return first :: rest

def stateSuffix : Parser String := do
  if (← kind) = .colon && (← secondKind) = .styleWord then
    advance
    let word ← current
    advance
    return word.literal
  else return ""

/-- A selector names an element or at least one class. -/
def parser : Parser Selector := do
  let t ← current
  let (element, classes) ← if t.kind = .styleWord then
      advance
      pure (dotted t.literal)
    else pure ("", [])
  let suffixes ← many (·.kind = .dot) classSuffix
  let classes := classes ++ suffixes.flatten
  if element.isEmpty && classes.isEmpty then expected .selector
  else return ⟨element, classes, ← stateSuffix⟩

end Selector

namespace Property

/-- The words of a value with single spaces between them. `glued` tells that the next word follows
what is before it without a space, as after a slash, a dot or an exclamation mark. -/
def valueStep (later : Bool → Parser String) (glued : Bool) : Parser String := do
  let t ← current
  let gap := if glued then "" else " "
  match t.kind with
  | .styleWord | .number | .string =>
    advance
    let word := gap ++ t.literal
    if ← accept (.opening .paren) then
      let inner ← later true
      let _ ← expect (.closing .paren)
      return word ++ "(" ++ inner ++ ")" ++ (← later false)
    else return word ++ (← later false)
  | .comma =>
    advance
    return "," ++ (← later false)
  | .slash =>
    advance
    return "/" ++ (← later true)
  | .dot =>
    advance
    return gap ++ "." ++ (← later true)
  | .keyword .not =>
    advance
    return gap ++ "!" ++ (← later true)
  | _ => return ""

def valueFrom : Nat → Bool → Parser String
  | 0, _ => exhausted (return "")
  | rounds + 1, glued => round fun again => valueStep (fun g => again (valueFrom rounds g)) glued

def parser : Parser Property := do
  let t ← current
  if t.kind = .styleWord then
    advance
    let _ ← expect .colon
    let value ← bounded fun rounds => valueFrom rounds true
    let _ ← expect .newline
    return ⟨t.literal, value⟩
  else expected .propertyName

end Property

/-- A colon after the selectors is optional. -/
def Rule.parser : Parser Rule := do
  let position ← here
  let selectors ← commaList1 Selector.parser
  let _ ← accept .colon
  let _ ← expect .newline
  let properties ← indented Property.parser
  return ⟨selectors, properties, position⟩

/-- What follows the `css` heading word at a position. -/
def StyleBlock.parser (position : Position) : Parser StyleBlock := do
  let params ← Param.listParser .styleWord
  headingEnd
  return ⟨params, ← indented Rule.parser, position⟩

end Stencil
