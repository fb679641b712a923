import Stencil.Expr.Reading
import Stencil.Markup.Basic
import Stencil.Style.Reading

/-! Reading markup blocks. Each indented body takes a token, so their depth is bounded. -/
namespace Stencil

open Stencil.Parser

/-- Where a statement stands: it decides which bindings are allowed. -/
inductive Place where
  | block | element | branch
deriving DecidableEq, Repr

def isNamePiece (t : Token) : Bool := t.kind = .dash || t.kind = .number || t.isWord

/-- Words, dashes and numbers that follow each other without a gap from an offset on. -/
def namePiecesStep (later : Nat → Parser String) (offset : Nat) : Parser String := do
  let t ← current
  if t.offset = offset && isNamePiece t then
    advance
    return t.literal ++ (← later t.stop)
  else return ""

def namePieces : Nat → Nat → Parser String
  | 0, _ => exhausted (return "")
  | rounds + 1, offset => round fun again =>
    namePiecesStep (fun next => again (namePieces rounds next)) offset

/-- A name such as `btn-2x`: a word and the pieces right after it. -/
def dashName : Parser String := do
  let t ← current
  if t.isWord then
    advance
    return t.literal ++ (← bounded fun rounds => namePieces rounds t.stop)
  else expected .name

def ClassClause.parser : Parser ClassClause := do
  advance
  let name ← dashName
  if ← accept .question then
    let _ ← expect (.opening .paren)
    let condition ← Expr.parser
    let _ ← expect (.closing .paren)
    return ⟨name, some condition⟩
  else return ⟨name, none⟩

def attributeParser : Parser (String × Expr) := do
  let name ← dashName
  let _ ← expect .equals
  return (name, ← Expr.parser)

def attributesParser : Parser (List (String × Expr)) := do
  if ← accept (.opening .square) then
    let attributes ← commaList (·.isWord) attributeParser
    let _ ← expect (.closing .square)
    return attributes
  else return []

namespace Link

/-- An expression in square brackets, if there is one. -/
def filter : Parser (Option Expr) := do
  if ← accept (.opening .square) then
    let x ← Expr.parser
    let _ ← expect (.closing .square)
    return some x
  else return none

def target : Parser LinkTarget := do
  let first ← Expr.parser
  if ← accept .arrow then return ⟨← Expr.parser, some first⟩
  else return ⟨first, none⟩

def entry : Parser LinkEntry := do
  let t ← expect .identifier
  let filter ← filter
  if ← accept .colon then
    let renamed ← expect .identifier
    return ⟨t.literal, filter, some renamed.literal⟩
  else return ⟨t.literal, filter, none⟩

def parser : Parser Link := do
  let t ← current
  match t.kind with
  | .identifier =>
    advance
    let filter ← filter
    let _ ← expect .equals
    return .single t.literal filter (← target)
  | .opening .brace =>
    advance
    let entries ← commaList (·.kind = .identifier) entry
    let _ ← expect (.closing .brace)
    let _ ← expect .equals
    return .multi entries (← target)
  | _ => expected .link

end Link

namespace Statement

/-- A string on a line of its own. -/
def textParser : Parser Statement := do
  let p ← here
  let value ← stringValue
  let _ ← expect .newline
  return .text p (← split value)

def outputParser : Parser Statement := do
  let p ← here
  advance
  let value ← Expr.parser
  let _ ← expect .newline
  return .output p value

/-- A name and its value after a word for a binding. -/
def bindingParser (make : Position → String → Expr → Statement) : Parser Statement := do
  let p ← here
  advance
  let name ← expect .identifier
  let _ ← expect .equals
  let value ← Expr.parser
  let _ ← expect .newline
  return make p name.literal value

def linkParser : Parser Statement := do
  let p ← here
  advance
  let links ← commaList1 Link.parser
  let _ ← expect .newline
  return .link p links

section Nested

variable (body : Place → Parser (List Statement))

/-- An element without a name is a `div`. Text on its line is its body. -/
def elementParser : Parser Statement := do
  let p ← here
  let t ← current
  let name ← if t.kind = .identifier then
      advance
      pure t.literal
    else pure "div"
  let classes ← many (·.kind = .dot) ClassClause.parser
  let attributes ← attributesParser
  match ← kind with
  | .string => return .element p name classes attributes [← textParser]
  | .newline =>
    advance
    return .element p name classes attributes (← body .element)
  | _ => expected .elementEnd

def branchesStep (later : Parser (List (Expr × List Statement))) :
    Parser (List (Expr × List Statement)) := do
  advance
  let condition ← Expr.parser
  headingEnd
  let chosen ← body .branch
  if (← kind) = .keyword .«elif» then return (condition, chosen) :: (← later)
  else return [(condition, chosen)]

def branchesFrom : Nat → Parser (List (Expr × List Statement))
  | 0 => exhausted (return [])
  | rounds + 1 => round fun again => branchesStep body (again (branchesFrom rounds))

def choiceParser : Parser Statement := do
  let p ← here
  let branches ← bounded (branchesFrom body)
  if ← accept (.keyword .«else») then
    headingEnd
    return .choice p branches (some (← body .branch))
  else return .choice p branches none

def loopParser : Parser Statement := do
  let p ← here
  advance
  let name ← expect .identifier
  let _ ← expect (.keyword .«of»)
  let items ← Expr.parser
  headingEnd
  return .loop p name.literal items (← body .branch)

/-- A statement, given a reader for the bodies in it. -/
def parser (place : Place) : Parser Statement := do
  match ← kind with
  | .identifier | .dot => elementParser body
  | .string => textParser
  | .equals => outputParser
  | .keyword .«if» => choiceParser body
  | .keyword .«for» => loopParser body
  | .keyword .«let» =>
    if place = .branch then fail fun _ => .letInBranch else bindingParser .binding
  | .keyword .store =>
    if place = .element then bindingParser .store else fail fun _ => .storeOutsideElement
  | .keyword .link => if place = .element then linkParser else fail fun _ => .linkOutsideElement
  | _ => expected .statement

end Nested

/-- A body with bodies nested less deep than a bound. -/
def bodyWithin : Nat → Place → Parser (List Statement)
  | 0, _ => exhausted (return [])
  | depth + 1, place => round fun again =>
    indented (parser (fun inner => again (bodyWithin depth inner)) place)

end Statement

/-- What follows the `html` heading word, if there is one, at a position. -/
def MarkupBlock.parser (position : Position) : Parser MarkupBlock := do
  let name ← expect .identifier
  let params ← Param.listParser .identifier
  let events ← if ← accept (.keyword .events) then
      commaList1 (return (← expect .identifier).literal)
    else pure []
  headingEnd
  let body ← bounded fun depth => Statement.bodyWithin depth .block
  return ⟨name.literal, params, events, body, position⟩

end Stencil
