import Stencil.Diagnostic

/-! Style blocks: rules of selectors and properties, and the variables that property values may name. -/
namespace Stencil

/-- A parameter of a block; `fallback` is the literal of its default value, quotes included. -/
structure Param where
  name : String
  fallback : Option String := none
  position : Position := {}
deriving DecidableEq, Repr

/-- An empty element or state is one that the selector does not ask for. -/
structure Selector where
  element : String := ""
  classes : List String := []
  state : String := ""
deriving DecidableEq, Repr

structure Property where
  name : String
  value : String
deriving DecidableEq, Repr

structure Rule where
  selectors : List Selector
  properties : List Property
  position : Position := {}
deriving DecidableEq, Repr

structure StyleBlock where
  params : List Param
  rules : List Rule
  position : Position := {}
deriving DecidableEq, Repr

/-- The selector as a style sheet writes it. -/
def Selector.text (s : Selector) : String :=
  s.element ++ String.join (s.classes.map ("." ++ ·)) ++
    (if s.state.isEmpty then "" else ":" ++ s.state)

/-- A selector is bare if it names an element and no class. -/
def Selector.isBare (s : Selector) : Bool := !s.element.isEmpty && s.classes.isEmpty

end Stencil
