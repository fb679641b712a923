import Mathlib.Logic.Function.Basic
import Stencil.Script.Basic

/-!
# What code computes

Code is evaluated over any values and any meaning of the operators. Functions are values that
nothing is known about, but a method may be called with a function written out in the call, and
then it can call that function. All that is known of methods is what `map` does to a list.

A `var` belongs to the whole function in which it stands and is undefined before it gets its value.
A function written out in code keeps the variables with the values they have there.
-/
namespace Stencil.Script

/-- Values and what the operators do to them. -/
structure Interpretation (V : Type) where
  undefined : V
  string : String → V
  number : String → V
  object : List (String × V) → V
  list : List V → V
  function : (List V → V) → V
  member : V → String → V
  item : V → V → V
  call : V → List V → V
  method : V → String → List V → V
  /-- A method that is called with a function written out. -/
  visit : V → String → (List V → V) → V
  construct : V → V
  negate : V → V
  truthy : V → Bool
  operate : Operator → V → V → V
  assign : V → String → V → V
  /-- The items of a list; other values have none. -/
  items : V → Option (List V)
  items_list : ∀ vs, items (list vs) = some vs
  visit_map : ∀ v vs f, items v = some vs → visit v "map" f = list (vs.map fun x => f [x])

abbrev Env (V : Type) := String → V

/-- The names that the statements of a function declare. -/
def declared : List Stmt → List String
  | [] => []
  | .var name _ :: body | .function name _ _ :: body => name :: declared body
  | _ :: body => declared body

theorem declared_vars (vars : List (String × Expr)) (x : Expr) :
    declared (vars.map (fun v => .var v.1 v.2) ++ [.ret x]) = vars.map (·.1) := by
  induction vars with
  | nil => rfl
  | cons v vars ih => rw [List.map_cons, List.cons_append, declared, ih, List.map_cons]

namespace Interpretation

variable {V : Type} (I : Interpretation V)

def hide (env : Env V) (names : List String) : Env V :=
  fun n => if n ∈ names then I.undefined else env n

/-- A parameter without an argument is undefined. -/
def bindArgs (env : Env V) : List String → List V → Env V
  | [], _ => env
  | p :: params, args =>
    bindArgs (Function.update env p (args.headD I.undefined)) params args.tail

/-- The variables at the start of a function. -/
def enter (env : Env V) (params : List (String × Option Expr)) (body : List Stmt)
    (args : List V) : Env V :=
  I.bindArgs (I.hide env (declared body)) (params.map (·.1)) args

mutual

@[grind =] def eval (env : Env V) : Expr → V
  | .string value => I.string value
  | .number digits => I.number digits
  | .object properties => I.object (evalProperties env properties)
  | .list items => I.list (evalItems env items)
  | .name name => env name
  | .attribute object name => I.member (eval env object) name
  | .item object index => I.item (eval env object) (eval env index)
  | .call (.attribute object method) [.function _ params body] =>
    I.visit (eval env object) method fun args => evalBody (I.enter env params body args) body
  | .call (.attribute object method) arguments =>
    I.method (eval env object) method (evalItems env arguments)
  | .call function arguments => I.call (eval env function) (evalItems env arguments)
  | .new operand => I.construct (eval env operand)
  | .not operand => I.negate (eval env operand)
  | .and left right =>
    if I.truthy (eval env left) then eval env right else eval env left
  | .or left right =>
    if I.truthy (eval env left) then eval env left else eval env right
  | .operation op left right => I.operate op (eval env left) (eval env right)
  | .function _ params body => I.function fun args => evalBody (I.enter env params body args) body
  | .assign object name value => I.assign (eval env object) name (eval env value)
  | .ternary condition chosen otherwise =>
    if I.truthy (eval env condition) then eval env chosen else eval env otherwise
  | .missing => I.undefined

def evalItems (env : Env V) : List Expr → List V
  | [] => []
  | x :: xs => eval env x :: evalItems env xs

def evalProperties (env : Env V) : List (String × Expr) → List (String × V)
  | [] => []
  | (key, x) :: properties => (key, eval env x) :: evalProperties env properties

/-- What the statements of a function return. -/
def evalBody (env : Env V) : List Stmt → V
  | [] => I.undefined
  | .ret x :: _ => eval env x
  | .var name x :: body => evalBody (Function.update env name (eval env x)) body
  | .function name params inner :: body =>
    evalBody (Function.update env name
      (I.function fun args => evalBody (I.enter env params inner args) inner)) body
  | .expr _ :: body | .missing :: body => evalBody env body

end

/-- What a declared function returns. -/
def apply (env : Env V) : Stmt → List V → V
  | .function _ params body, args => I.evalBody (I.enter env params body args) body
  | _, _ => I.undefined

end Interpretation
end Stencil.Script
