import Stencil.Script.Basic

/-! Places of a tree that were never filled, in the order in which the tree is printed. The default
values of parameters are not printed and not looked at. -/
namespace Stencil.Script

inductive Gap where
  | expression | statement
deriving DecidableEq, Repr

def Gap.message : Gap → String
  | .expression => "js: unknown expression <nil>"
  | .statement => "js: unknown statement <nil>"

mutual

@[grind =] def Expr.gap? : Expr → Option Gap
  | .string _ | .number _ | .name _ => none
  | .object properties => propertiesGap? properties
  | .list items => itemsGap? items
  | .attribute object _ => object.gap?
  | .item object index => object.gap?.or index.gap?
  | .call function arguments => function.gap?.or (itemsGap? arguments)
  | .new operand | .not operand => operand.gap?
  | .and left right | .or left right | .operation _ left right => left.gap?.or right.gap?
  | .function _ _ body => bodyGap? body
  | .assign object _ value => object.gap?.or value.gap?
  | .ternary condition chosen otherwise => (condition.gap?.or chosen.gap?).or otherwise.gap?
  | .missing => some .expression

def propertiesGap? : List (String × Expr) → Option Gap
  | [] => none
  | (_, value) :: rest => value.gap?.or (propertiesGap? rest)

def itemsGap? : List Expr → Option Gap
  | [] => none
  | item :: rest => item.gap?.or (itemsGap? rest)

def Stmt.gap? : Stmt → Option Gap
  | .expr value | .ret value | .var _ value => value.gap?
  | .function _ _ body => bodyGap? body
  | .missing => some .statement

def bodyGap? : List Stmt → Option Gap
  | [] => none
  | s :: rest => s.gap?.or (bodyGap? rest)

end

/-- The first gap of code in the order of its text. -/
def Code.gap? (code : Code) : Option Gap := bodyGap? code

end Stencil.Script
