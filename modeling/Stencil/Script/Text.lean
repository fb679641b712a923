import Stencil.Script.Basic
import Stencil.Text.Quoted

/-! The text of JavaScript code, with parentheses where an operand binds looser than its place asks.
The text is laid out in pieces first, so that only the margins depend on the indent width. -/
namespace Stencil.Script

def escapeChar (c : Char) : String :=
  if c = '\r' then "\\r"
  else if c = '\n' then "\\n"
  else if c = '\t' then "\\t"
  else if c = '"' then "\\\""
  else if c = '\'' then "\\'"
  else if c = '\\' then "\\\\"
  else if c.toNat < 0x20 then "\\x" ++ Text.Quoted.hex 2 c.toNat
  else c.toString

/-- A text as a literal in double quotes. -/
def quote (text : String) : String := "\"" ++ String.join (text.toList.map escapeChar) ++ "\""

def isNameStart (c : Char) : Bool :=
  ('a' ≤ c && c ≤ 'z') || ('A' ≤ c && c ≤ 'Z') || c == '_' || c == '$'

def isName (text : String) : Bool :=
  match text.toList with
  | [] => false
  | c :: cs => isNameStart c && cs.all fun c => isNameStart c || ('0' ≤ c && c ≤ '9')

/-- The name of a property, quoted unless it is an identifier. -/
def propertyName (key : String) : String := if isName key then key else quote key

inductive Piece where
  | text (text : String)
  | newline
  | margin (depth : Nat)
deriving DecidableEq, Repr

def Piece.print (width : Nat) : Piece → String
  | .text t => t
  | .newline => "\n"
  | .margin depth => String.ofList (List.replicate (depth * width) ' ')

/-- Binding strengths; a tighter one is greater. -/
inductive Level where
  | lowest | assign | or | and | equality | relational | additive | multiplicative | unary | new
  | call | primary
deriving DecidableEq, Repr

def Level.rank : Level → Nat
  | .lowest => 0
  | .assign => 2
  | .or => 4
  | .and => 5
  | .equality => 8
  | .relational => 9
  | .additive => 11
  | .multiplicative => 12
  | .unary => 14
  | .new => 17
  | .call => 18
  | .primary => 20

def Operator.level : Operator → Level
  | .arith .add | .arith .sub => .additive
  | .arith _ | .otherArith => .multiplicative
  | .relation .equal | .relation .notEqual => .equality
  | .relation _ | .otherRelation => .relational

def Expr.level : Expr → Level
  | .assign .. => .assign
  | .or .. => .or
  | .and .. => .and
  | .operation op _ _ => op.level
  | .not _ => .unary
  | .new _ => .new
  | .attribute .. | .item .. | .call .. => .call
  | _ => .primary

/-- What an operand of `||` must reach: a conjunction is always put in parentheses. -/
def Expr.orRank (rank : Nat) : Expr → Nat
  | .and .. => Level.primary.rank
  | _ => rank

/-- An object or a function in front would read as a block or a declaration. -/
def Expr.needsShield : Expr → Bool
  | .function .. | .object _ => true
  | _ => false

def enclose (condition : Bool) (inner : List Piece) : List Piece :=
  if condition then .text "(" :: inner ++ [.text ")"] else inner

def header (name : String) (params : List (String × Option Expr)) : String :=
  "function" ++ (if name.isEmpty then "" else " " ++ name) ++
    "(" ++ ", ".intercalate (params.map (·.1)) ++ ") \x7b"

mutual

/-- The pieces of an expression in lines of a depth, at a place that asks for a rank. -/
def Expr.pieces (depth rank : Nat) : Expr → List Piece
  | .string value => [.text (quote value)]
  | .number digits => [.text digits]
  | .name name => [.text name]
  | .object [] => [.text "\x7b\x7d"]
  | .object [(key, value)] =>
    .text ("\x7b" ++ propertyName key ++ ": ") :: value.pieces depth Level.assign.rank ++
      [.text "\x7d"]
  | .object properties =>
    .text "\x7b" :: .newline :: propertyPieces (depth + 1) properties ++
      [.margin depth, .text "\x7d"]
  | .list [] => [.text "[]"]
  | .list [item] => .text "[" :: item.pieces depth Level.assign.rank ++ [.text "]"]
  | .list items =>
    .text "[" :: .newline :: itemPieces (depth + 1) items ++ [.margin depth, .text "]"]
  | .attribute object name =>
    enclose (Level.call.rank < rank)
      (object.pieces depth Level.call.rank ++ [.text ".", .text name])
  | .item object index =>
    enclose (Level.call.rank < rank)
      (object.pieces depth Level.call.rank ++ .text "[" ::
        index.pieces depth Level.lowest.rank ++ [.text "]"])
  | .call function arguments =>
    enclose (Level.call.rank < rank)
      (function.pieces depth Level.call.rank ++ .text "(" ::
        argumentPieces depth arguments ++ [.text ")"])
  | .new operand =>
    enclose (Level.new.rank < rank) (.text "new " :: operand.pieces depth Level.new.rank)
  | .not operand =>
    enclose (Level.unary.rank < rank) (.text "!" :: operand.pieces depth Level.unary.rank)
  | .and left right =>
    enclose (Level.and.rank < rank)
      (left.pieces depth Level.and.rank ++ .text " && " ::
        right.pieces depth (Level.and.rank + 1))
  | .or left right =>
    enclose (Level.or.rank < rank)
      (left.pieces depth (left.orRank Level.or.rank) ++ .text " || " ::
        right.pieces depth (right.orRank (Level.or.rank + 1)))
  | .operation op left right =>
    enclose (op.level.rank < rank)
      (left.pieces depth op.level.rank ++ .text (" " ++ op.symbol ++ " ") ::
        right.pieces depth (op.level.rank + 1))
  | .ternary condition chosen otherwise =>
    .text "((" :: condition.pieces depth Level.lowest.rank ++ .text ")?(" ::
      chosen.pieces depth Level.lowest.rank ++ .text "):(" ::
      otherwise.pieces depth Level.lowest.rank ++ [.text "))"]
  | .function name params [] => [.text (header name params), .text "\x7d"]
  | .function name params body =>
    .text (header name params) :: .newline :: bodyPieces (depth + 1) body ++
      [.margin depth, .text "\x7d"]
  | .assign object name value =>
    enclose (Level.assign.rank < rank)
      (object.pieces depth Level.call.rank ++ .text ("." ++ name ++ " = ") ::
        value.pieces depth Level.assign.rank)
  | .missing => []

/-- Properties, one a line. -/
def propertyPieces (depth : Nat) : List (String × Expr) → List Piece
  | [] => []
  | (key, value) :: rest =>
    .margin depth :: .text (propertyName key ++ ": ") ::
      value.pieces depth Level.assign.rank ++ .text "," :: .newline :: propertyPieces depth rest

/-- Items, one a line. -/
def itemPieces (depth : Nat) : List Expr → List Piece
  | [] => []
  | item :: rest =>
    .margin depth :: item.pieces depth Level.assign.rank ++
      .text "," :: .newline :: itemPieces depth rest

def argumentPieces (depth : Nat) : List Expr → List Piece
  | [] => []
  | [argument] => argument.pieces depth Level.assign.rank
  | argument :: rest =>
    argument.pieces depth Level.assign.rank ++ .text ", " :: argumentPieces depth rest

def Stmt.pieces (depth : Nat) : Stmt → List Piece
  | .expr value =>
    .margin depth :: enclose value.needsShield (value.pieces depth Level.lowest.rank) ++
      [.text ";", .newline]
  | .ret value =>
    .margin depth :: .text "return " :: value.pieces depth Level.lowest.rank ++
      [.text ";", .newline]
  | .var name value =>
    .margin depth :: .text ("var " ++ name ++ " = ") :: value.pieces depth Level.assign.rank ++
      [.text ";", .newline]
  | .function name params body =>
    .margin depth :: .text ("function " ++ name ++ "(" ++ ", ".intercalate (params.map (·.1)) ++
      ") \x7b") :: .newline :: bodyPieces (depth + 1) body ++
      [.margin depth, .text "\x7d", .newline]
  | .missing => []

def bodyPieces (depth : Nat) : List Stmt → List Piece
  | [] => []
  | s :: rest => s.pieces depth ++ bodyPieces depth rest

end

/-- A width that is not positive stands for four spaces. -/
def indentWidth (width : Int) : Nat := if width ≤ 0 then 4 else width.toNat

def Code.text (width : Int) (code : Code) : String :=
  String.join ((bodyPieces 0 code).map (Piece.print (indentWidth width)))

end Stencil.Script
