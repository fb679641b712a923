import Stencil.Markup.Basic
import Stencil.Text.Basic

/-!
# Names in templates

The names that expressions refer to, the names that a block binds, and where which of them may be
referred to. A parameter is visible in the whole body, the variable of a loop in the body of the
loop, and the name of a `let` or a `store` after it, in the rest of its body.
-/
namespace Stencil

mutual

/-- The names that an expression refers to, from left to right. -/
def Expr.names : Expr → List String
  | .name _ name => [name]
  | .string .. | .number .. => []
  | .new _ operand | .not _ operand => operand.names
  | .and _ left right | .or _ left right => left.names ++ right.names
  | .attribute _ object _ => object.names
  | .item _ object index => object.names ++ index.names
  | .call _ function arguments => function.names ++ namesOfAll arguments
  | .arithmetic _ _ left right | .relation _ _ left right => left.names ++ right.names
  | .format _ segments => namesOfSegments segments
  | .dictionary _ items => namesOfItems items
  | .list _ items => namesOfAll items

def namesOfAll : List Expr → List String
  | [] => []
  | x :: xs => x.names ++ namesOfAll xs

def namesOfItems : List (String × Expr) → List String
  | [] => []
  | (_, x) :: items => x.names ++ namesOfItems items

def namesOfSegments : List Segment → List String
  | [] => []
  | .text _ :: segments => namesOfSegments segments
  | .expr x :: segments => x.names ++ namesOfSegments segments

end

/-- Links of several members keep their target in a variable. -/
def Link.isMulti : Link → Bool
  | .single .. => false
  | .multi .. => true

namespace Statement

/-- Statements that make their element a function of the node that it replaces. -/
def declares : Statement → Bool
  | .binding .. | .store .. => true
  | .link _ links => links.any Link.isMulti
  | _ => false

mutual

/-- The names that a statement binds, in itself and in its bodies. -/
def binders : Statement → List String
  | .element _ _ _ _ body => bodyBinders body
  | .text .. | .output .. | .link .. => []
  | .binding _ name _ | .store _ name _ => [name]
  | .choice _ branches otherwise =>
    branchBinders branches ++ (match otherwise with
      | none => []
      | some body => bodyBinders body)
  | .loop _ name _ body => name :: bodyBinders body

def bodyBinders : List Statement → List String
  | [] => []
  | s :: rest => s.binders ++ bodyBinders rest

def branchBinders : List (Expr × List Statement) → List String
  | [] => []
  | (_, body) :: rest => bodyBinders body ++ branchBinders rest

end

end Statement

def MarkupBlock.binders (b : MarkupBlock) : List String :=
  b.params.map (·.name) ++ Statement.bodyBinders b.body

/-- The names of variables that are made up for the targets of links. -/
def isStreamName (name : String) : Bool :=
  let digits := name.toList.drop 8
  "_stream_".toList.isPrefixOf name.toList && !digits.isEmpty && digits.all Text.isDigit

/-- Names that functions of old nodes bind by themselves. -/
def isSynthetic (name : String) : Bool := name = "old_node" || isStreamName name

/-- Names that have a meaning of their own in the code of a block. -/
def isSpecial (name : String) : Bool := isSynthetic name || name = "ev" || name = "String"

/-- What expressions at some place may refer to. `bound` are all names that the block binds and
`visible` those of them that are in scope; `inner` tells whether the place is in an element that is
a function of the node that it replaces. -/
structure Visibility where
  bound : List String
  visible : List String
  inner : Bool

namespace Visibility

/-- A name that is bound in the block is in scope, and the names that functions of old nodes bind by
themselves are not referred to in them. -/
def allows (v : Visibility) (name : String) : Bool :=
  (!v.bound.contains name || v.visible.contains name) && !(v.inner && isSynthetic name)

def covers (v : Visibility) (x : Expr) : Bool := x.names.all v.allows

def reveal (v : Visibility) (name : String) : Visibility := { v with visible := name :: v.visible }

/-- The place of an element's own expressions and of its body. -/
def enter (v : Visibility) (body : List Statement) : Visibility :=
  { v with inner := v.inner || body.any Statement.declares }

end Visibility

def LinkTarget.isScoped (v : Visibility) (t : LinkTarget) : Bool :=
  v.covers t.target && t.value.all v.covers

def Link.isScoped (v : Visibility) : Link → Bool
  | .single _ filter target => filter.all v.covers && target.isScoped v
  | .multi entries target => entries.all (·.filter.all v.covers) && target.isScoped v

namespace Statement

mutual

def isScoped (v : Visibility) : Statement → Bool
  | .element _ _ classes attributes body =>
    classes.all (·.condition.all (v.enter body).covers) &&
      attributes.all (fun a => (v.enter body).covers a.2) && bodyScoped (v.enter body) body
  | .text _ segments => (namesOfSegments segments).all v.allows
  | .output _ value | .binding _ _ value | .store _ _ value => v.covers value
  | .link _ links => links.all (·.isScoped v)
  | .choice _ branches otherwise =>
    branchesScoped v branches && (match otherwise with
      | none => true
      | some body => bodyScoped v body)
  | .loop _ name items body => v.covers items && bodyScoped (v.reveal name) body

def bodyScoped (v : Visibility) : List Statement → Bool
  | [] => true
  | .binding _ name value :: rest | .store _ name value :: rest =>
    v.covers value && bodyScoped (v.reveal name) rest
  | s :: rest => s.isScoped v && bodyScoped v rest

def branchesScoped (v : Visibility) : List (Expr × List Statement) → Bool
  | [] => true
  | (condition, body) :: rest => v.covers condition && bodyScoped v body && branchesScoped v rest

end

end Statement

/-- Names are referred to only in their scopes. -/
def MarkupBlock.isScoped (b : MarkupBlock) : Bool :=
  Statement.bodyScoped ⟨b.binders, b.params.map (·.name), false⟩ b.body

end Stencil
