import Stencil.Expr.Basic

/-! Trees of JavaScript code. A place that was never filled is `missing`; such a tree has no text. -/
namespace Stencil.Script

/-- Operators with two operands that are joined to the left. An operator that is not in the tables
has an empty symbol. -/
inductive Operator where
  | arith (op : ArithOp)
  | relation (op : Relation)
  | otherArith
  | otherRelation
deriving DecidableEq, Repr

/-- Equality is always strict. -/
def Operator.symbol : Operator → String
  | .arith op => op.symbol
  | .relation .equal => "==="
  | .relation .notEqual => "!=="
  | .relation op => op.symbol
  | .otherArith | .otherRelation => ""

mutual

/-- The default values of parameters are kept in the tree and never printed. A function whose name
is empty has none. -/
inductive Expr where
  | string (value : String)
  | number (digits : String)
  | object (properties : List (String × Expr))
  | list (items : List Expr)
  | name (name : String)
  | attribute (object : Expr) (name : String)
  | item (object index : Expr)
  | call (function : Expr) (arguments : List Expr)
  | new (operand : Expr)
  | not (operand : Expr)
  | and (left right : Expr)
  | or (left right : Expr)
  | operation (op : Operator) (left right : Expr)
  | function (name : String) (params : List (String × Option Expr)) (body : List Stmt)
  | assign (object : Expr) (name : String) (value : Expr)
  | ternary (condition chosen otherwise : Expr)
  | missing

inductive Stmt where
  | expr (value : Expr)
  | ret (value : Expr)
  | var (name : String) (value : Expr)
  | function (name : String) (params : List (String × Option Expr)) (body : List Stmt)
  | missing

end

abbrev Code := List Stmt

instance : Inhabited Expr := ⟨.missing⟩

instance : Inhabited Stmt := ⟨.missing⟩

namespace Expr

/-- A sum of strings. -/
def concat (first : Expr) (rest : List Expr) : Expr := rest.foldl (.operation (.arith .add)) first

def concatAll : List Expr → Expr
  | [] => .missing
  | first :: rest => concat first rest

/-- A chain of attributes. -/
def dot (object : Expr) (names : List String) : Expr := names.foldl .attribute object

end Expr
end Stencil.Script
