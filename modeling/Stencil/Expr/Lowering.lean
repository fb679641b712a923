import Stencil.Script.Basic

/-! Expressions of templates as expressions of JavaScript. -/
namespace Stencil

/-- A text is the sum of its parts. -/
def concatenation : List Script.Expr → Script.Expr
  | [] => .string ""
  | first :: rest => Script.Expr.concat first rest

mutual

def Expr.lower : Expr → Script.Expr
  | .name _ name => .name name
  | .string _ value => .string value
  | .number _ digits => .number digits
  | .new _ operand => .new operand.lower
  | .not _ operand => .not operand.lower
  | .and _ left right => .and left.lower right.lower
  | .or _ left right => .or left.lower right.lower
  | .attribute _ object name => .attribute object.lower name
  | .item _ object index => .item object.lower index.lower
  | .call _ function arguments => .call function.lower (lowerAll arguments)
  | .arithmetic _ op left right => .operation (.arith op) left.lower right.lower
  | .relation _ op left right => .operation (.relation op) left.lower right.lower
  | .format _ segments => concatenation (lowerSegments segments)
  | .dictionary _ items => .object (lowerItems items)
  | .list _ items => .list (lowerAll items)

def lowerAll : List Expr → List Script.Expr
  | [] => []
  | x :: xs => x.lower :: lowerAll xs

def lowerItems : List (String × Expr) → List (String × Script.Expr)
  | [] => []
  | (key, x) :: items => (key, x.lower) :: lowerItems items

/-- The value of an expression in a text is turned into a string first. -/
def lowerSegments : List Segment → List Script.Expr
  | [] => []
  | .text t :: segments => .string t :: lowerSegments segments
  | .expr x :: segments => .call (.name "String") [x.lower] :: lowerSegments segments

end

end Stencil
