import Stencil.Token.Parser

/-! Reading expressions. From the loosest to the tightest level: `or`, `and`, `not`, relations, sums,
products, `new`, suffixes. A level is a reader made from a reader for what stands in brackets, and
`Expr.within` ties the knot: each pair of brackets takes a token, so their depth is bounded. -/
namespace Stencil
namespace Expr

open Stencil.Parser

/-- How an operator joins its operands, if the kind is one of the level. -/
abbrev Joining := TokenKind → Option (Position → Expr → Expr → Expr)

def chainStep (operand : Parser Expr) (joining : Joining) (later : Expr → Parser Expr)
    (left : Expr) : Parser Expr := do
  match joining (← kind) with
  | none => return left
  | some join =>
    let p ← here
    advance
    let right ← operand
    later (join p left right)

def chainFrom (operand : Parser Expr) (joining : Joining) : Nat → Expr → Parser Expr
  | 0, left => exhausted (return left)
  | rounds + 1, left => round fun again =>
    chainStep operand joining (fun x => again (chainFrom operand joining rounds x)) left

/-- Operands joined to the left. -/
def chain (operand : Parser Expr) (joining : Joining) : Parser Expr := do
  let first ← operand
  bounded fun rounds => chainFrom operand joining rounds first

def prefixStep (word : Keyword) (wrap : Position → Expr → Expr) (operand later : Parser Expr) :
    Parser Expr := do
  if (← kind) = .keyword word then
    let p ← here
    advance
    return wrap p (← later)
  else operand

def prefixedFrom (word : Keyword) (wrap : Position → Expr → Expr) (operand : Parser Expr) :
    Nat → Parser Expr
  | 0 => exhausted operand
  | rounds + 1 => round fun again =>
    prefixStep word wrap operand (again (prefixedFrom word wrap operand rounds))

/-- Any number of equal words in front of an operand. -/
def prefixed (word : Keyword) (wrap : Position → Expr → Expr) (operand : Parser Expr) :
    Parser Expr :=
  bounded (prefixedFrom word wrap operand)

/-- Expressions up to a closing bracket, which is taken too. -/
def listUntil (inner : Parser Expr) (b : Bracket) : Parser (List Expr) := do
  let items ← commaList (·.kind ≠ .closing b) inner
  let _ ← expect (.closing b)
  return items

def key : Parser String := do
  let t ← current
  if t.kind = .string then stringValue
  else if t.isWord then
    advance
    return t.literal
  else expected .dictionaryKey

def dictionaryItem (inner : Parser Expr) : Parser (String × Expr) := do
  let k ← key
  let _ ← expect .colon
  return (k, ← inner)

/-- A string is a format string if an expression stands in it. -/
def ofSegments (p : Position) (segments : List Segment) : Expr :=
  if segments.any Segment.isExpr then .format p segments else .string p (Segment.plainText segments)

def atom (inner : Parser Expr) : Parser Expr := do
  let t ← current
  let p ← here
  match t.kind with
  | .identifier =>
    advance
    return .name p t.literal
  | .number =>
    advance
    return .number p t.literal
  | .string => return ofSegments p (← split (← stringValue))
  | .opening .brace =>
    advance
    let items ← commaList (·.kind ≠ .closing .brace) (dictionaryItem inner)
    let _ ← expect (.closing .brace)
    return .dictionary p items
  | .opening .square =>
    advance
    return .list p (← listUntil inner .square)
  | .opening .paren =>
    advance
    let x ← inner
    let _ ← expect (.closing .paren)
    return x
  | _ => expected .expression

def suffixesStep (inner : Parser Expr) (later : Expr → Parser Expr) (x : Expr) : Parser Expr := do
  let p ← here
  match ← kind with
  | .dot =>
    advance
    let t ← current
    if t.isWord then
      advance
      later (.attribute p x t.literal)
    else expected .attributeName
  | .opening .square =>
    advance
    let index ← inner
    let _ ← expect (.closing .square)
    later (.item p x index)
  | .opening .paren =>
    advance
    let arguments ← listUntil inner .paren
    later (.call p x arguments)
  | _ => return x

def suffixesFrom (inner : Parser Expr) : Nat → Expr → Parser Expr
  | 0, x => exhausted (return x)
  | rounds + 1, x => round fun again =>
    suffixesStep inner (fun y => again (suffixesFrom inner rounds y)) x

/-- An atom with its attributes, indices and calls. -/
def suffixed (inner : Parser Expr) : Parser Expr := do
  let x ← atom inner
  bounded fun rounds => suffixesFrom inner rounds x

def product : Joining
  | .times => some (.arithmetic · .mul)
  | .slash => some (.arithmetic · .div)
  | _ => none

def sum : Joining
  | .plus => some (.arithmetic · .add)
  | .dash => some (.arithmetic · .sub)
  | _ => none

def comparing : Joining
  | .doubleEquals => some (.relation · .equal)
  | .notEquals => some (.relation · .notEqual)
  | .less => some (.relation · .less)
  | .lessOrEqual => some (.relation · .lessOrEqual)
  | .greater => some (.relation · .greater)
  | .greaterOrEqual => some (.relation · .greaterOrEqual)
  | _ => none

def conjunction : Joining
  | .keyword .and => some .and
  | _ => none

def disjunction : Joining
  | .keyword .or => some .or
  | _ => none

/-- A whole expression, given a reader for the expressions in its brackets. -/
def level (inner : Parser Expr) : Parser Expr :=
  let operand : Parser Expr := prefixed .new .new (suffixed inner)
  let comparison := chain (chain (chain operand product) sum) comparing
  let negation : Parser Expr := prefixed .not .not comparison
  chain (chain negation conjunction) disjunction

/-- An expression with brackets nested less deep than a bound. -/
def within : Nat → Parser Expr
  | 0 => exhausted (expected .expression)
  | depth + 1 => round fun again => level (again (within depth))

def parser : Parser Expr := bounded within

/-- An expression and the line break that may follow it. -/
def line : Parser Expr := do
  let x ← parser
  let _ ← accept .newline
  return x

/-- A source that is one expression. -/
def whole : Parser Expr := do
  let x ← line
  let _ ← expect .eof
  return x

def readWith (split : String → List Segment) (file source : String) : Except Fault Expr :=
  let scan := Scan.of file source
  (whole ⟨file, scan.ending, split⟩ scan.tokens).map (·.1)

end Expr
end Stencil
