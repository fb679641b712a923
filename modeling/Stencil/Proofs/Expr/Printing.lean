import Stencil.Expr.Format
import Stencil.Proofs.Token.Scanning

/-!
# Expressions as they are written

An expression is written on one line, with parentheses only where its level asks for them. From the
loosest to the tightest the levels are `or`, `and`, `not`, relations, sums, products, `new`,
suffixes and atoms. Operators are joined to the left, and `new` takes all suffixes after it.

Strings are quoted, and their braces are doubled so that they hold no expression.
-/
namespace Stencil

namespace Format

def isBrace (c : Char) : Bool := c = '{' || c = '}'

/-- A text whose braces stand for themselves. -/
def double (text : List Char) : List Char := text.flatMap fun c => if isBrace c then [c, c] else [c]

end Format

def ArithOp.kind : ArithOp → TokenKind
  | .add => .plus
  | .sub => .dash
  | .mul => .times
  | .div => .slash

def Relation.kind : Relation → TokenKind
  | .equal => .doubleEquals
  | .notEqual => .notEquals
  | .less => .less
  | .lessOrEqual => .lessOrEqual
  | .greater => .greater
  | .greaterOrEqual => .greaterOrEqual

def ArithOp.rank : ArithOp → Nat
  | .add | .sub => 4
  | .mul | .div => 5

namespace Expr

/-- The level of an expression, the loosest first. -/
def rank : Expr → Nat
  | .or .. => 0
  | .and .. => 1
  | .not .. => 2
  | .relation .. => 3
  | .arithmetic _ op _ _ => op.rank
  | .new .. => 6
  | .attribute .. | .item .. | .call .. => 7
  | _ => 8

end Expr

/-- An operator with its operands: the left one may be of the same level. -/
def joined (operator : Written) (left right : List Written) : List Written :=
  left ++ [.blank, operator, .blank] ++ right

namespace Written

/-- Items with commas between them. -/
def listed : List (List Written) → List Written
  | [] => []
  | [item] => item
  | item :: items => item ++ comma ++ listed items

end Written

mutual

/-- An expression where the level must be at least `least`. -/
def Expr.written (least : Nat) : Expr → List Written
  | .name _ name => [.mark .identifier name]
  | .number _ digits => [.mark .number digits]
  | .string _ value => [.mark .string (Literal.quote (Format.double value.toList))]
  | .format _ segments => [.mark .string (Literal.quote (formatText segments))]
  | .dictionary _ items => Written.enclose .brace (writtenItems items)
  | .list _ items => Written.enclose .square (writtenAll items)
  | .attribute _ object name =>
    Written.encloseIf (7 < least) (object.written 7 ++ [.mark .dot ".", .mark (.ofWord name) name])
  | .item _ object index =>
    Written.encloseIf (7 < least)
      (object.written 7 ++ Written.enclose .square (index.written 0))
  | .call _ function arguments =>
    Written.encloseIf (7 < least)
      (function.written 7 ++ Written.enclose .paren (writtenAll arguments))
  | .new _ operand =>
    Written.encloseIf (6 < least) (Written.word .new :: .blank :: operand.written 6)
  | .arithmetic _ op left right =>
    Written.encloseIf (op.rank < least)
      (joined (.mark op.kind op.symbol) (left.written op.rank) (right.written (op.rank + 1)))
  | .relation _ op left right =>
    Written.encloseIf (3 < least)
      (joined (.mark op.kind op.symbol) (left.written 3) (right.written 4))
  | .not _ operand =>
    Written.encloseIf (2 < least) (Written.word .not :: .blank :: operand.written 2)
  | .and _ left right =>
    Written.encloseIf (1 < least)
      (joined (Written.word .and) (left.written 1) (right.written 2))
  | .or _ left right =>
    Written.encloseIf (0 < least)
      (joined (Written.word .or) (left.written 0) (right.written 1))

def writtenAll : List Expr → List Written
  | [] => []
  | [x] => x.written 0
  | x :: xs => x.written 0 ++ Written.comma ++ writtenAll xs

/-- Keys are quoted, and their braces stand as they are. -/
def writtenItems : List (String × Expr) → List Written
  | [] => []
  | [(key, x)] =>
    .mark .string (Literal.quote key.toList) :: .mark .colon ":" :: .blank :: x.written 0
  | (key, x) :: items =>
    .mark .string (Literal.quote key.toList) :: .mark .colon ":" :: .blank :: x.written 0 ++
      Written.comma ++ writtenItems items

/-- The text of a format string, before it is quoted. -/
def formatText : List Segment → List Char
  | [] => []
  | .text t :: segments => Format.double t.toList ++ formatText segments
  | .expr x :: segments => '{' :: Written.line (x.written 0) ++ '}' :: formatText segments

end

/-- An expression on one line. -/
def Expr.text (e : Expr) : String := String.ofList (Written.line (e.written 0))

/-! ## Which expressions have a text -/

mutual

/-- Names are words that are not reserved and attributes are any words. Numbers are as they are
scanned, and a text that is quoted is one string, as every ASCII text is (`isStringText_quote`). -/
def Expr.isWritable : Expr → Bool
  | .name _ name => isWordText name && (Keyword.ofText? name).isNone
  | .number _ digits => Script.isNumeral digits
  | .string _ value => isStringText (Literal.quote (Format.double value.toList))
  | .format _ segments => segments.any Segment.isExpr &&
    (segmentsWritable segments && isStringText (Literal.quote (formatText segments)))
  | .dictionary _ items => itemsWritable items
  | .list _ items => allWritable items
  | .attribute _ object name => object.isWritable && isWordText name
  | .item _ object index => object.isWritable && index.isWritable
  | .call _ function arguments => function.isWritable && allWritable arguments
  | .new _ operand | .not _ operand => operand.isWritable
  | .and _ left right | .or _ left right | .arithmetic _ _ left right
  | .relation _ _ left right => left.isWritable && right.isWritable

def allWritable : List Expr → Bool
  | [] => true
  | x :: xs => x.isWritable && allWritable xs

def itemsWritable : List (String × Expr) → Bool
  | [] => true
  | (key, x) :: items =>
    isStringText (Literal.quote key.toList) && x.isWritable && itemsWritable items

/-- Texts are not empty and do not meet, and the expressions between them are written without
braces. -/
def segmentsWritable : List Segment → Bool
  | [] => true
  | .text t :: segments =>
    !t.isEmpty && segments.head?.all Segment.isExpr && segmentsWritable segments
  | .expr x :: segments =>
    x.isWritable && (Written.line (x.written 0)).all (!Format.isBrace ·) &&
      segmentsWritable segments

end

/-! ## Expressions without their places -/

mutual

@[grind =] def Expr.unplaced : Expr → Expr
  | .name _ name => .name {} name
  | .string _ value => .string {} value
  | .number _ digits => .number {} digits
  | .new _ operand => .new {} operand.unplaced
  | .not _ operand => .not {} operand.unplaced
  | .and _ left right => .and {} left.unplaced right.unplaced
  | .or _ left right => .or {} left.unplaced right.unplaced
  | .attribute _ object name => .attribute {} object.unplaced name
  | .item _ object index => .item {} object.unplaced index.unplaced
  | .call _ function arguments => .call {} function.unplaced (unplacedAll arguments)
  | .arithmetic _ op left right => .arithmetic {} op left.unplaced right.unplaced
  | .relation _ op left right => .relation {} op left.unplaced right.unplaced
  | .format _ segments => .format {} (unplacedSegments segments)
  | .dictionary _ items => .dictionary {} (unplacedItems items)
  | .list _ items => .list {} (unplacedAll items)

def unplacedAll : List Expr → List Expr
  | [] => []
  | x :: xs => x.unplaced :: unplacedAll xs

def unplacedItems : List (String × Expr) → List (String × Expr)
  | [] => []
  | (key, x) :: items => (key, x.unplaced) :: unplacedItems items

def unplacedSegments : List Segment → List Segment
  | [] => []
  | .text t :: segments => .text t :: unplacedSegments segments
  | .expr x :: segments => .expr x.unplaced :: unplacedSegments segments

end

end Stencil
