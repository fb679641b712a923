import Stencil.Proofs.Markup.Names
import Stencil.Proofs.Script.Evaluation
import Stencil.Markup.Lowering

/-!
# What a template means

A template is read directly, statement by statement, in an environment that grows with the names it
binds. A choice gives its first branch whose condition holds. A loop gives its body once for each
item. A store takes the value that the old node kept, if there is one. A body with one node is that
node, and any other is an object with the list of its nodes.
-/
namespace Stencil

open Script (Interpretation Env)

/-- Values by name, in the order in which the names come first. -/
def grouped {α : Type} (pairs : List (String × α)) : List (String × List α) :=
  (pairs.map (·.1)).eraseDups.map fun name => (name, (pairs.filter (·.1 = name)).map (·.2))

/-- A body has one node if one of its statements does more than bind names. -/
def hasOneNode (body : List Statement) : Bool :=
  body.countP (fun
    | .store .. | .binding .. | .link .. => false
    | _ => true) = 1

theorem Fragment.isSingle_eq (body : List Statement) : isSingle body = hasOneNode body := by
  rw [isSingle, renderable, ← List.countP_eq_length_filter, hasOneNode]
  refine congrArg (fun n : Nat => decide (n = 1)) (List.countP_congr fun s _ => ?_)
  cases s <;> exact Iff.rfl

/-- What the statements of a body come to: nodes, stores to keep and handlers of events. -/
structure Parts (V : Type) where
  nodes : List V := []
  stores : List (String × V) := []
  handlers : List (String × V) := []

/-- Values, what operators do to them, and the value that turns others into texts. -/
structure Rendering (V : Type) extends Interpretation V where
  toText : V

namespace Rendering

variable {V : Type} (R : Rendering V)

def add (left right : V) : V := R.operate (.arith .add) left right

def sum : List V → V
  | [] => R.string ""
  | v :: vs => vs.foldl R.add v

mutual

def value (env : Env V) : Expr → V
  | .name _ name => env name
  | .string _ text => R.string text
  | .number _ digits => R.number digits
  | .new _ operand => R.construct (value env operand)
  | .not _ operand => R.negate (value env operand)
  | .and _ left right => if R.truthy (value env left) then value env right else value env left
  | .or _ left right => if R.truthy (value env left) then value env left else value env right
  | .attribute _ object name => R.member (value env object) name
  | .item _ object index => R.item (value env object) (value env index)
  | .call _ (.attribute _ object method) arguments =>
    R.method (value env object) method (values env arguments)
  | .call _ function arguments => R.call (value env function) (values env arguments)
  | .arithmetic _ op left right => R.operate (.arith op) (value env left) (value env right)
  | .relation _ op left right => R.operate (.relation op) (value env left) (value env right)
  | .format _ segments => R.sum (pieces env segments)
  | .dictionary _ items => R.object (itemValues env items)
  | .list _ items => R.list (values env items)

def values (env : Env V) : List Expr → List V
  | [] => []
  | x :: xs => value env x :: values env xs

def itemValues (env : Env V) : List (String × Expr) → List (String × V)
  | [] => []
  | (key, x) :: items => (key, value env x) :: itemValues env items

/-- The pieces of a text: literal ones, and the values of its expressions as texts. -/
def pieces (env : Env V) : List Segment → List V
  | [] => []
  | .text t :: segments => R.string t :: pieces env segments
  | .expr x :: segments => R.call R.toText [value env x] :: pieces env segments

end

def select (condition chosen otherwise : V) : V :=
  if R.truthy condition then chosen else otherwise

/-- What a loop over a value gives. -/
def forEach (v : V) (body : V → V) : V :=
  match R.items v with
  | some vs => R.list (vs.map body)
  | none => R.visit v "map" fun args => body (args.headD R.undefined)

/-- A value that the old node kept wins over the first value. -/
def storeValue (old : V) (name : String) (first : V) : V :=
  let kept := R.member old ("store_" ++ name)
  if R.truthy old && R.truthy kept then kept else first

/-- What a store does when its node goes. -/
def destroyedHandler (store : V) : V :=
  let owner := R.member store "owner_destroyed"
  if R.truthy owner then R.member owner "handle_event" else R.function fun _ => R.undefined

/-- The handler of an event for a stream: events are replaced by a value first, if there is one,
and then filtered. -/
def handler (env : Env V) (stream : V) (filter replacement : Option Expr) : V :=
  let onEvent (x : Expr) (args : List V) : V :=
    R.value (Function.update env "ev" (args.headD R.undefined)) x
  let mapped := match replacement with
    | none => stream
    | some x => R.visit stream "map" (onEvent x)
  let filtered := match filter with
    | none => mapped
    | some x => R.visit mapped "filter" (onEvent x)
  R.member filtered "handle_event"

/-- A target that several members share is looked up once. -/
def linkHandlers (env : Env V) : Link → List (String × V)
  | .single event filter target =>
    [(event, R.handler env (R.value env target.target) filter target.value)]
  | .multi entries target =>
    let stream := R.value env target.target
    entries.map fun e =>
      (e.renamed.getD e.member, R.handler env (R.member stream e.member) e.filter target.value)

/-- A lone handler stands for itself, several are a list. -/
def events (handlers : List (String × V)) : V :=
  R.object ((grouped handlers).map fun
    | (event, [h]) => (event, h)
    | (event, hs) => (event, R.list hs))

section Classes

variable (scope : BlockScope) (env : Env V) (name : String) (classes : List ClassClause)
  (attributes : List (String × Expr))

def conditionalClass (c : ClassClause) : Option V :=
  c.condition.map fun x => if R.truthy (R.value env x) then R.string c.name else R.string ""

/-- The class of the block marks elements with classes, and those that styles name without one.
Classes without a condition follow it. -/
def fixedClasses : List String :=
  (if scope.blockName ≠ "" ∧ (classes ≠ [] ∨ name ∈ scope.bareElements) then [scope.blockName]
    else []) ++ (classes.filter (·.condition.isNone)).map (·.name)

/-- The fixed classes, those whose conditions hold and the values of attributes of that name. -/
def classParts : List V :=
  let fixed := fixedClasses scope name classes
  (if fixed.isEmpty then [] else [R.string (" ".intercalate fixed)]) ++
    classes.filterMap (R.conditionalClass env) ++
    (attributes.filter (·.1 = "class")).map fun a => R.value env a.2

/-- The attributes in their order, and the classes with spaces between them. -/
def attributeValues : List (String × V) :=
  let others := (attributes.filter (·.1 ≠ "class")).map fun a => (a.1, R.value env a.2)
  match R.classParts scope env name classes attributes with
  | [] => others
  | first :: rest =>
    others ++ [("class", rest.foldl (fun sum part => R.add (R.add sum (R.string " ")) part) first)]

end Classes

/-- A body with one node is that node; several, or none, are the children of an object. -/
def gather (single : Bool) (key : V) (nodes : List V) : V :=
  if single then nodes.headD R.undefined
  else R.object [("key", key), ("children", R.list nodes)]

/-- The key of a child or a branch. -/
def branchKey (key : V) (i : Nat) : V := R.add key (R.string s!":{i}")

/-- The key of an item of a loop. -/
def itemKey (key item : V) : V := R.add (R.add key (R.string ":")) item

/-- An element from its attributes and the parts of its body. -/
def elementObject (key : V) (name : String) (attributes : List (String × V)) (single : Bool)
    (p : Parts V) : V :=
  R.object ([("key", key), ("tag", R.string name)] ++ p.stores ++
    (if attributes.isEmpty then [] else [("attrs", R.object attributes)]) ++
    (if p.nodes.isEmpty then [] else [("children", R.gather single key p.nodes)]) ++
    (if p.handlers.isEmpty then [] else [("events", R.events p.handlers)]))

mutual

/-- The node of a statement. Statements that only bind names have none. -/
def node (scope : BlockScope) (env : Env V) (key : V) : Statement → V
  | .element _ name classes attributes body =>
    let single := hasOneNode body
    let build (old : V) : V :=
      R.elementObject key name (R.attributeValues scope env name classes attributes) single
        (parts scope env old single key 0 body)
    if body.any Statement.declares then R.function fun args => build (args.headD R.undefined)
    else build R.undefined
  | .text _ segments => R.sum (R.pieces env segments)
  | .output _ x => R.value env x
  | .choice _ branches otherwise =>
    chosen scope env key 0 (match otherwise with
      | none => R.string ""
      | some body =>
        let key := R.branchKey key branches.length
        let single := hasOneNode body
        R.gather single key (parts scope env R.undefined single key 0 body).nodes) branches
  | .loop _ name items body =>
    R.forEach (R.value env items) fun v =>
      let key := R.itemKey key v
      let single := hasOneNode body
      R.gather single key
        (parts scope (Function.update env name v) R.undefined single key 0 body).nodes
  | .store .. | .binding .. | .link .. => R.undefined

/-- What the statements of a body come to, where `i` nodes stand before them and `old` is the node
that their element replaces. -/
def parts (scope : BlockScope) (env : Env V) (old : V) (single : Bool) (key : V) (i : Nat) :
    List Statement → Parts V
  | [] => {}
  | .binding _ name x :: rest =>
    parts scope (Function.update env name (R.value env x)) old single key i rest
  | .store _ name x :: rest =>
    let v := R.storeValue old name (R.value env x)
    let p := parts scope (Function.update env name v) old single key i rest
    { p with
      stores := ("store_" ++ name, v) :: p.stores
      handlers := ("$destroyed", R.destroyedHandler v) :: p.handlers }
  | .link _ links :: rest =>
    let p := parts scope env old single key i rest
    { p with handlers := links.flatMap (R.linkHandlers env) ++ p.handlers }
  | s :: rest =>
    let p := parts scope env old single key (i + 1) rest
    { p with nodes := node scope env (if single then key else R.branchKey key i) s :: p.nodes }

/-- The first branch whose condition holds, or the last resort. -/
def chosen (scope : BlockScope) (env : Env V) (key : V) (i : Nat) (last : V) :
    List (Expr × List Statement) → V
  | [] => last
  | (condition, body) :: rest =>
    let branch := R.branchKey key i
    let single := hasOneNode body
    R.select (R.value env condition)
      (R.gather single branch (parts scope env R.undefined single branch 0 body).nodes)
      (chosen scope env key (i + 1) last rest)

end

/-- The node of a body without stores and links. -/
def body (scope : BlockScope) (env : Env V) (key : V) (statements : List Statement) : V :=
  let single := hasOneNode statements
  R.gather single key (R.parts scope env R.undefined single key 0 statements).nodes

/-- What a block gives for the values of its parameters. -/
def block (scope : BlockScope) (env : Env V) (b : MarkupBlock) (args : List V) : V :=
  R.body scope (R.bindArgs env (b.params.map (·.name)) args)
    (R.string (scope.blockName ++ ":" ++ b.name)) b.body

end Rendering
end Stencil
