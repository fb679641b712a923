import Stencil.Expr.Lowering
import Stencil.Literal
import Stencil.Markup.Basic

/-! Markup blocks as functions that build a tree of nodes. An element is an object with its tag, its
attributes, its children and its events. -/
namespace Stencil

/-- The class of the block and the elements that its styles name without a class. -/
structure BlockScope where
  blockName : String := ""
  bareElements : List String := []

/-- Handlers by event, in the order in which the events were first named. -/
abbrev EventTable := List (String × List Script.Expr)

namespace EventTable

def add (name : String) (handler : Script.Expr) : EventTable → EventTable
  | [] => [(name, [handler])]
  | (event, handlers) :: rest =>
    if event = name then (event, handlers ++ [handler]) :: rest
    else (event, handlers) :: add name handler rest

/-- A lone handler stands for itself, several are a list. -/
def object (table : EventTable) : Script.Expr :=
  .object (table.map fun
    | (event, [handler]) => (event, handler)
    | (event, handlers) => (event, .list handlers))

end EventTable

/-- A function of the event, which it calls `ev`. -/
def eventCallback (x : Expr) : Script.Expr := .function "" [("ev", none)] [.ret x.lower]

/-- The handler that passes events on to a stream: mapped to a value first, then filtered. -/
def eventHandler (stream : Script.Expr) (filter value : Option Expr) : Script.Expr :=
  let step (method : String) (callback : Option Expr) (stream : Script.Expr) : Script.Expr :=
    match callback with
    | none => stream
    | some x => .call (.attribute stream method) [eventCallback x]
  .attribute (step "filter" filter (step "map" value stream)) "handle_event"

/-- What the bindings of an element's body contribute to it: statements that run before the element
is built, stores to keep for the next time, and handlers. -/
structure Prelude where
  statements : List Script.Stmt := []
  stores : List (String × Script.Expr) := []
  events : EventTable := []

namespace Prelude

def bind (name : String) (value : Script.Expr) (p : Prelude) : Prelude :=
  { p with statements := p.statements ++ [.var name value] }

def handle (event : String) (handler : Script.Expr) (p : Prelude) : Prelude :=
  { p with events := p.events.add event handler }

def addLink (p : Prelude) : Link → Prelude
  | .single event filter target =>
    p.handle event (eventHandler target.target.lower filter target.value)
  | .multi entries target =>
    let stream := s!"_stream_{p.statements.length}"
    entries.foldl
      (fun p e => p.handle e.event
        (eventHandler (.attribute (.name stream) e.member) e.filter target.value))
      (p.bind stream target.target.lower)

/-- A store takes the value of the old node if there is one, and is told when its node goes. -/
def addStore (p : Prelude) (name : String) (value : Expr) : Prelude :=
  let old : Script.Expr := .name "old_node"
  let member := "store_" ++ name
  let store : Script.Expr := .name name
  let p := p.bind name (.or (.and old (.attribute old member)) value.lower)
  let p := { p with stores := p.stores ++ [(member, store)] }
  p.handle "$destroyed"
    (.ternary (store.dot ["owner_destroyed"]) (store.dot ["owner_destroyed", "handle_event"])
      (.function "" [] []))

def add (p : Prelude) : Statement → Prelude
  | .binding _ name value => p.bind name value.lower
  | .store _ name value => p.addStore name value
  | .link _ links => links.foldl addLink p
  | _ => p

def ofBody (body : List Statement) : Prelude := body.foldl add {}

end Prelude

namespace Element

/-- Classes without a condition, with the class of the block in front. -/
def fixedClasses (scope : BlockScope) (name : String) (classes : List ClassClause) : List String :=
  let marked := !scope.blockName.isEmpty && (!classes.isEmpty || scope.bareElements.contains name)
  (if marked then [scope.blockName] else []) ++
    (classes.filter (·.condition.isNone)).map (·.name)

def conditionalClass (c : ClassClause) : Option Script.Expr :=
  c.condition.map fun x => .ternary x.lower (.string c.name) (.string "")

/-- The parts of the class attribute: the fixed classes, the conditional ones and the values of
attributes of that name. -/
def classParts (scope : BlockScope) (name : String) (classes : List ClassClause)
    (attributes : List (String × Expr)) : List Script.Expr :=
  let fixed := fixedClasses scope name classes
  (if fixed.isEmpty then [] else [.string (" ".intercalate fixed)]) ++
    classes.filterMap conditionalClass ++
    (attributes.filter (·.1 = "class")).map (·.2.lower)

/-- Parts with a space between them. -/
def spaced (first : Script.Expr) (rest : List Script.Expr) : Script.Expr :=
  rest.foldl (fun sum part => Script.Expr.concat sum [.string " ", part]) first

/-- The class attribute comes last. -/
def attributeObject (scope : BlockScope) (name : String) (classes : List ClassClause)
    (attributes : List (String × Expr)) : List (String × Script.Expr) :=
  let others := (attributes.filter (·.1 ≠ "class")).map fun (key, x) => (key, x.lower)
  match classParts scope name classes attributes with
  | [] => others
  | first :: rest => others ++ [("class", spaced first rest)]

def keyProperty (key : Option Script.Expr) : List (String × Script.Expr) :=
  match key with
  | none => []
  | some k => [("key", k)]

/-- An element with its children, if it has any. With bindings it is made by a function of the node
that it replaces. -/
def assemble (scope : BlockScope) (key : Option Script.Expr) (name : String)
    (classes : List ClassClause) (attributes : List (String × Expr)) (bindings : Prelude)
    (children : Option Script.Expr) : Script.Expr :=
  let attributes := attributeObject scope name classes attributes
  let object : Script.Expr := .object
    (keyProperty key ++ [("tag", .string name)] ++ bindings.stores ++
      (if attributes.isEmpty then [] else [("attrs", .object attributes)]) ++
      (children.toList.map fun c => ("children", c)) ++
      (if bindings.events.isEmpty then [] else [("events", bindings.events.object)]))
  if bindings.statements.isEmpty then object
  else .function "" [("old_node", none)] (bindings.statements ++ [.ret object])

end Element

/-- The key of a child or a branch: the key of its parent and its number. -/
def branchKey (key : Option Script.Expr) (i : Nat) : Option Script.Expr :=
  key.map fun k => Script.Expr.concat k [.string s!":{i}"]

/-- The key of an item: the key of its loop and the loop's variable. -/
def itemKey (key : Option Script.Expr) (name : String) : Option Script.Expr :=
  key.map fun k => Script.Expr.concat k [.string ":", .name name]

namespace Fragment

def renderable (body : List Statement) : List Statement := body.filter (!·.isControl)

/-- A body with one node is that node. -/
def isSingle (body : List Statement) : Bool := (renderable body).length = 1

def childKey (single : Bool) (key : Option Script.Expr) (i : Nat) : Option Script.Expr :=
  if single then key else branchKey key i

/-- Several nodes, or none, are the children of an object. -/
def assemble (single : Bool) (key : Option Script.Expr) (nodes : List Script.Expr) : Script.Expr :=
  if single then nodes.headD .missing
  else .object (Element.keyProperty key ++ [("children", .list nodes)])

end Fragment

mutual

/-- The node of a statement. A statement that gives none leaves a gap. -/
def Statement.node (scope : BlockScope) (key : Option Script.Expr) : Statement → Script.Expr
  | .element _ name classes attributes body =>
    let single := Fragment.isSingle body
    let nodes := bodyNodes scope single key 0 body
    Element.assemble scope key name classes attributes (Prelude.ofBody body)
      (if nodes.isEmpty then none else some (Fragment.assemble single key nodes))
  | .text _ segments => concatenation (lowerSegments segments)
  | .output _ value => value.lower
  | .choice _ branches otherwise =>
    choiceNode scope key 0 (match otherwise with
      | none => .string ""
      | some body =>
        let key := branchKey key branches.length
        let single := Fragment.isSingle body
        Fragment.assemble single key (bodyNodes scope single key 0 body)) branches
  | .loop _ name items body =>
    let key := itemKey key name
    let single := Fragment.isSingle body
    .call (.attribute items.lower "map")
      [.function "" [(name, none)]
        [.ret (Fragment.assemble single key (bodyNodes scope single key 0 body))]]
  | .store .. | .binding .. | .link .. => .missing

/-- The nodes of a body, where `i` nodes stand before it. -/
def bodyNodes (scope : BlockScope) (single : Bool) (key : Option Script.Expr) (i : Nat) :
    List Statement → List Script.Expr
  | [] => []
  | s :: rest =>
    if s.isControl then bodyNodes scope single key i rest
    else s.node scope (Fragment.childKey single key i) :: bodyNodes scope single key (i + 1) rest

/-- The first branch whose condition holds, or the last resort. -/
def choiceNode (scope : BlockScope) (key : Option Script.Expr) (i : Nat) (last : Script.Expr) :
    List (Expr × List Statement) → Script.Expr
  | [] => last
  | (condition, body) :: rest =>
    let branch := branchKey key i
    let single := Fragment.isSingle body
    .ternary condition.lower
      (Fragment.assemble single branch (bodyNodes scope single branch 0 body))
      (choiceNode scope key (i + 1) last rest)

end

/-- The node of a body. -/
def fragment (scope : BlockScope) (key : Option Script.Expr) (body : List Statement) : Script.Expr :=
  let single := Fragment.isSingle body
  Fragment.assemble single key (bodyNodes scope single key 0 body)

namespace MarkupBlock

/-- A default whose literal has no value is left out. -/
def lowerParam (p : Param) : String × Option Script.Expr :=
  (p.name, p.fallback.bind fun literal =>
    match Literal.value literal with
    | .ok value => some (.string value)
    | .error _ => none)

def bindings (b : MarkupBlock) : List Script.Stmt :=
  b.body.filterMap fun
    | .binding _ name value => some (.var name value.lower)
    | _ => none

def rootKey (scope : BlockScope) (b : MarkupBlock) : Script.Expr :=
  .string (scope.blockName ++ ":" ++ b.name)

/-- The function that builds the block's nodes. -/
def lower (scope : BlockScope) (b : MarkupBlock) : Script.Stmt :=
  .function b.name (b.params.map lowerParam)
    (b.bindings ++ [.ret (fragment scope (some (b.rootKey scope)) b.body)])

end MarkupBlock
end Stencil
