import Stencil.Expr.Basic
import Stencil.Style.Basic

/-! Markup blocks: parameters, events and a body of statements. -/
namespace Stencil

/-- A class of an element; with a condition the element has it only while that holds. -/
structure ClassClause where
  name : String
  condition : Option Expr := none

/-- Where events go: to a target, perhaps with a value in their place. -/
structure LinkTarget where
  target : Expr
  value : Option Expr := none

/-- One member of a stream that is linked to an event. -/
structure LinkEntry where
  member : String
  filter : Option Expr := none
  renamed : Option String := none

/-- The event is named after the member unless it has a name of its own. -/
def LinkEntry.event (e : LinkEntry) : String := e.renamed.getD e.member

inductive Link where
  | single (event : String) (filter : Option Expr) (target : LinkTarget)
  | multi (entries : List LinkEntry) (target : LinkTarget)

inductive Statement where
  | element (position : Position) (name : String) (classes : List ClassClause)
      (attributes : List (String × Expr)) (body : List Statement)
  | text (position : Position) (segments : List Segment)
  | output (position : Position) (value : Expr)
  | store (position : Position) (name : String) (value : Expr)
  | binding (position : Position) (name : String) (value : Expr)
  | link (position : Position) (links : List Link)
  | choice (position : Position) (branches : List (Expr × List Statement))
      (otherwise : Option (List Statement))
  | loop (position : Position) (name : String) (items : Expr) (body : List Statement)

namespace Statement

def position : Statement → Position
  | .element p _ _ _ _ | .text p _ | .output p _ | .store p _ _ | .binding p _ _ | .link p _
  | .choice p _ _ | .loop p _ _ _ => p

/-- Bindings, stores and links give no node of their own. -/
def isControl : Statement → Bool
  | .store .. | .binding .. | .link .. => true
  | _ => false

end Statement

structure MarkupBlock where
  name : String
  params : List Param
  events : List String
  body : List Statement
  position : Position := {}

end Stencil
