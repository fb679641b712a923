import Stencil.Proofs.Markup.Contribution
import Stencil.Proofs.Script.Scoping

/-!
# What names in a block are meant for

The names in a block are listed in the order in which its code has them, each with the declaration
that the template means by it and with the functions that the code puts around it. Names that the
code makes up are listed too. A name in a key is meant for the loop that put it there.

A parameter is meant everywhere in its block, the variable of a loop in the body of the loop, and
the name of a `let` or a `store` after it, in the rest of its body. An event is called `ev` in the
filter and in the value of a link.
-/
namespace Stencil

open Script (Chain Declaration Use)

/-- A name in the code, what the template means by it and the functions around it. -/
structure Occurrence where
  name : String
  meant : Option Declaration
  chain : Chain

namespace Occurrence

def use (o : Occurrence) : Use := ⟨o.name, Script.resolve o.chain o.name⟩

def isCaptured (o : Occurrence) : Bool := Script.isCaptured o.name o.meant o.chain

end Occurrence

/-- The names of the variables that a body declares, where `n` variables stand before it. -/
def Link.variableNames (n : Nat) (link : Link) : List String :=
  if link.isMulti then [streamName n] else []

def linkVariables (n : Nat) : List Link → List String
  | [] => []
  | link :: links =>
    link.variableNames n ++ linkVariables (n + (link.variableNames n).length) links

namespace Statement

def variableNames (n : Nat) : Statement → List String
  | .binding _ name _ | .store _ name _ => [name]
  | .link _ links => linkVariables n links
  | _ => []

def bodyVariables (n : Nat) : List Statement → List String
  | [] => []
  | s :: rest => s.variableNames n ++ bodyVariables (n + (s.variableNames n).length) rest

end Statement

/-- A place in a template: the names in scope there, the latest first, the functions around it in
the code, and how many parameters the innermost of them has. -/
structure Site where
  scope : List (String × Declaration)
  chain : Chain
  params : Nat

namespace Site

/-- A function around the place, with its parameters and its variables. -/
def enter (s : Site) (params vars : List String) : Site :=
  { s with chain := (params ++ vars) :: s.chain, params := params.length }

/-- The name with that number among those that the innermost function declares. -/
def declaration (s : Site) (i : Nat) : Declaration := ⟨s.chain.length - 1, i⟩

def bind (s : Site) (name : String) (i : Nat) : Site :=
  { s with scope := (name, s.declaration i) :: s.scope }

/-- The place after a statement that `n` variables stand before. -/
def after (s : Site) (n : Nat) : Statement → Site
  | .binding _ name _ | .store _ name _ => s.bind name (s.params + n)
  | _ => s

/-- A name that the template has at this place. -/
def refer (s : Site) (name : String) : Occurrence :=
  ⟨name, (s.scope.find? (·.1 = name)).map (·.2), s.chain⟩

/-- A name that the code makes up for what the innermost function declares. -/
def own (s : Site) (name : String) (i : Nat) : Occurrence := ⟨name, s.declaration i, s.chain⟩

/-- A name that the code makes up for a global one. -/
def global (s : Site) (name : String) : Occurrence := ⟨name, none, s.chain⟩

/-- The names of the loops that a key is made of. -/
def keyed (s : Site) (loops : List (String × Declaration)) : List Occurrence :=
  loops.map fun l => ⟨l.1, l.2, s.chain⟩

/-- The place of an element's own expressions and of its body. -/
def element (s : Site) (body : List Statement) : Site :=
  let vars := Statement.bodyVariables 0 body
  if vars.isEmpty then s else s.enter ["old_node"] vars

/-- In a function of one parameter, such as the body of a loop. -/
def function (s : Site) (param : String) : Site := (s.enter [param] []).bind param 0

end Site

mutual

def Expr.occurrences (s : Site) : Expr → List Occurrence
  | .name _ name => [s.refer name]
  | .string .. | .number .. => []
  | .new _ operand | .not _ operand => operand.occurrences s
  | .and _ left right | .or _ left right => left.occurrences s ++ right.occurrences s
  | .attribute _ object _ => object.occurrences s
  | .item _ object index => object.occurrences s ++ index.occurrences s
  | .call _ function arguments => function.occurrences s ++ occurrencesOfAll s arguments
  | .arithmetic _ _ left right | .relation _ _ left right =>
    left.occurrences s ++ right.occurrences s
  | .format _ segments => occurrencesOfSegments s segments
  | .dictionary _ items => occurrencesOfItems s items
  | .list _ items => occurrencesOfAll s items

def occurrencesOfAll (s : Site) : List Expr → List Occurrence
  | [] => []
  | x :: xs => x.occurrences s ++ occurrencesOfAll s xs

def occurrencesOfItems (s : Site) : List (String × Expr) → List Occurrence
  | [] => []
  | (_, x) :: items => x.occurrences s ++ occurrencesOfItems s items

def occurrencesOfSegments (s : Site) : List Segment → List Occurrence
  | [] => []
  | .text _ :: segments => occurrencesOfSegments s segments
  | .expr x :: segments => s.global "String" :: x.occurrences s ++ occurrencesOfSegments s segments

end

/-- The names in a filter or in a value of a link. -/
def callbackOccurrences (s : Site) (x : Option Expr) : List Occurrence :=
  x.toList.flatMap (·.occurrences (s.function "ev"))

/-- The names in the values that a body sets first, in its stores and in its handlers by event. -/
structure BindingOccurrences where
  values : List Occurrence := []
  stores : List Occurrence := []
  handlers : List (String × List Occurrence) := []

namespace BindingOccurrences

instance : Append BindingOccurrences :=
  ⟨fun c d => ⟨c.values ++ d.values, c.stores ++ d.stores, c.handlers ++ d.handlers⟩⟩

/-- Handlers stand together if they are for the same event. -/
def events (c : BindingOccurrences) : List Occurrence :=
  (grouped c.handlers).flatMap (·.2.flatten)

def ofLink (s : Site) (n : Nat) : Link → BindingOccurrences
  | .single event filter target =>
    { handlers := [(event, target.target.occurrences s ++
        callbackOccurrences s target.value ++ callbackOccurrences s filter)] }
  | .multi entries target =>
    { values := target.target.occurrences s
      handlers := entries.map fun e =>
        (e.renamed.getD e.member, s.own (streamName n) (s.params + n) ::
          callbackOccurrences s target.value ++ callbackOccurrences s e.filter) }

def ofLinks (s : Site) (n : Nat) : List Link → BindingOccurrences
  | [] => {}
  | link :: links => ofLink s n link ++ ofLinks s (n + (link.variableNames n).length) links

def ofStatement (s : Site) (n : Nat) : Statement → BindingOccurrences
  | .binding _ _ value => { values := value.occurrences s }
  | .store _ name value =>
    let old := s.own "old_node" 0
    let store := s.own name (s.params + n)
    { values := old :: old :: value.occurrences s
      stores := [store]
      handlers := [("$destroyed", [store, store])] }
  | .link _ links => ofLinks s n links
  | _ => {}

def ofBody (s : Site) (n : Nat) : List Statement → BindingOccurrences
  | [] => {}
  | x :: rest => ofStatement s n x ++ ofBody (s.after n x) (n + (x.variableNames n).length) rest

end BindingOccurrences

namespace Element

/-- Attributes other than the class come first, then conditions of classes and values of the class
attribute. -/
def occurrences (s : Site) (classes : List ClassClause) (attributes : List (String × Expr)) :
    List Occurrence :=
  (attributes.filter (·.1 ≠ "class")).flatMap (·.2.occurrences s) ++
    (classes.filterMap (·.condition)).flatMap (·.occurrences s) ++
    (attributes.filter (·.1 = "class")).flatMap (·.2.occurrences s)

end Element

/-- A body with one node is that node, and others have a key. -/
def fragmentOccurrences (key : List Occurrence) (body : List Statement) (nodes : List Occurrence) :
    List Occurrence :=
  if hasOneNode body then nodes else key ++ nodes

namespace Statement

mutual

/-- The names in the node of a statement, where `loops` are the loops in its key. -/
def occurrences (s : Site) (loops : List (String × Declaration)) : Statement → List Occurrence
  | .element _ _ classes attributes body =>
    let inner := s.element body
    let bindings := BindingOccurrences.ofBody inner 0 body
    let nodes := bodyOccurrences inner 0 loops body
    bindings.values ++ inner.keyed loops ++ bindings.stores ++
      Element.occurrences inner classes attributes ++
      (if (Fragment.renderable body).isEmpty then []
        else fragmentOccurrences (inner.keyed loops) body nodes) ++
      bindings.events
  | .text _ segments => occurrencesOfSegments s segments
  | .output _ value => value.occurrences s
  | .choice _ branches otherwise =>
    branchOccurrences s loops branches ++ (match otherwise with
      | none => []
      | some body => fragmentOccurrences (s.keyed loops) body (bodyOccurrences s 0 loops body))
  | .loop _ name items body =>
    let inner := s.function name
    let loops := loops ++ [(name, inner.declaration 0)]
    items.occurrences s ++
      fragmentOccurrences (inner.keyed loops) body (bodyOccurrences inner 0 loops body)
  | .store .. | .binding .. | .link .. => []

/-- The names in the nodes of a body, where `n` variables stand before it. -/
def bodyOccurrences (s : Site) (n : Nat) (loops : List (String × Declaration)) :
    List Statement → List Occurrence
  | [] => []
  | x :: rest => x.occurrences s loops ++
      bodyOccurrences (s.after n x) (n + (x.variableNames n).length) loops rest

def branchOccurrences (s : Site) (loops : List (String × Declaration)) :
    List (Expr × List Statement) → List Occurrence
  | [] => []
  | (condition, body) :: rest => condition.occurrences s ++
      fragmentOccurrences (s.keyed loops) body (bodyOccurrences s 0 loops body) ++
      branchOccurrences s loops rest

end

end Statement

namespace MarkupBlock

/-- The body of a block: all its parameters are in scope. -/
def site (b : MarkupBlock) : Site :=
  let names := b.params.map (·.name)
  { scope := names.zipIdx.map fun p => (p.1, ⟨0, p.2⟩)
    chain := [names ++ Statement.bodyVariables 0 b.body]
    params := names.length }

def occurrences (b : MarkupBlock) : List Occurrence :=
  (BindingOccurrences.ofBody b.site 0 b.body).values ++
    fragmentOccurrences [] b.body (Statement.bodyOccurrences b.site 0 [] b.body)

end MarkupBlock
end Stencil
