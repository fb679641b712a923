import Stencil.Diagnostic

/-! Expressions of templates. Each node keeps the position of the token that makes it one: an
operator's node stands at its operator. -/
namespace Stencil

inductive ArithOp where
  | add | sub | mul | div
deriving DecidableEq, Repr

def ArithOp.symbol : ArithOp → String
  | .add => "+"
  | .sub => "-"
  | .mul => "*"
  | .div => "/"

inductive Relation where
  | equal | notEqual | less | lessOrEqual | greater | greaterOrEqual
deriving DecidableEq, Repr

def Relation.symbol : Relation → String
  | .equal => "=="
  | .notEqual => "!="
  | .less => "<"
  | .lessOrEqual => "<="
  | .greater => ">"
  | .greaterOrEqual => ">="

mutual

inductive Expr where
  | name (position : Position) (name : String)
  | string (position : Position) (value : String)
  | number (position : Position) (digits : String)
  | new (position : Position) (operand : Expr)
  | not (position : Position) (operand : Expr)
  | and (position : Position) (left right : Expr)
  | or (position : Position) (left right : Expr)
  | attribute (position : Position) (object : Expr) (name : String)
  | item (position : Position) (object index : Expr)
  | call (position : Position) (function : Expr) (arguments : List Expr)
  | arithmetic (position : Position) (op : ArithOp) (left right : Expr)
  | relation (position : Position) (op : Relation) (left right : Expr)
  | format (position : Position) (segments : List Segment)
  | dictionary (position : Position) (items : List (String × Expr))
  | list (position : Position) (items : List Expr)

/-- A piece of a text: as it stands, or an expression whose value goes there. -/
inductive Segment where
  | text (text : String)
  | expr (value : Expr)

end

def Expr.position : Expr → Position
  | .name p _ | .string p _ | .number p _ | .new p _ | .not p _ | .and p _ _ | .or p _ _
  | .attribute p _ _ | .item p _ _ | .call p _ _ | .arithmetic p _ _ _ | .relation p _ _ _
  | .format p _ | .dictionary p _ | .list p _ => p

namespace Segment

def isExpr : Segment → Bool
  | .text _ => false
  | .expr _ => true

/-- The text that stands as it is. -/
def plainText : List Segment → String
  | [] => ""
  | .text t :: segments => t ++ plainText segments
  | .expr _ :: segments => plainText segments

/-- A text without expressions; an empty one has no segment. -/
def plain (text : String) : List Segment := if text.isEmpty then [] else [.text text]

/-- Text in front of segments joins the text that they start with. -/
def prepend (text : String) : List Segment → List Segment
  | .text t :: segments => .text (text ++ t) :: segments
  | segments => .text text :: segments

end Segment
end Stencil
