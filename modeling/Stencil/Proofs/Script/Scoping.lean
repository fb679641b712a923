import Mathlib.Data.List.Nodup
import Stencil.Proofs.Script.Evaluation

/-!
# What names in code stand for

A name stands for the variable of the nearest function around it that declares the name. A function
declares its parameters and, wherever they stand in it, its `var`s and the functions in it.

A name that is meant for one declaration is captured if a function nearer than the one of that
declaration declares the name too, or if that function itself declares it at another place.
-/
namespace Stencil.Script

open List

/-- A place that declares a name: the function that it belongs to, counted from the outside, and its
number among the names that this function declares. -/
structure Declaration where
  depth : Nat
  index : Nat
deriving DecidableEq, Repr

/-- All places at which one function declares one name make one variable. -/
structure Variable where
  depth : Nat
  places : List Nat
deriving DecidableEq, Repr

/-- The variable of a name that its function declares here and nowhere else. -/
def Declaration.variable (d : Declaration) : Variable := ⟨d.depth, [d.index]⟩

/-- The names that the functions around a place declare, from the inside out. -/
abbrev Chain := List (List String)

/-- The numbers of a name among those that a function declares. -/
def places (name : String) (frame : List String) : List Nat :=
  (List.range frame.length).filter (frame[·]? = some name)

/-- A name that no function declares is a global one. -/
def resolve : Chain → String → Option Variable
  | [], _ => none
  | frame :: outer, name =>
    if name ∈ frame then some ⟨outer.length, places name frame⟩ else resolve outer name

/-- A name in code and what it stands for. -/
structure Use where
  name : String
  target : Option Variable
deriving DecidableEq, Repr

mutual

/-- The names in an expression, from left to right. -/
def Expr.uses (chain : Chain) : Expr → List Use
  | .string _ | .number _ | .missing => []
  | .object properties => usesOfProperties chain properties
  | .list items => usesOfAll chain items
  | .name name => [⟨name, resolve chain name⟩]
  | .attribute object _ => object.uses chain
  | .item object index => object.uses chain ++ index.uses chain
  | .call function arguments => function.uses chain ++ usesOfAll chain arguments
  | .new operand | .not operand => operand.uses chain
  | .and left right | .or left right | .operation _ left right =>
    left.uses chain ++ right.uses chain
  | .function name params body =>
    -- The name of a function in an expression is declared around it, for itself only.
    let around := if name.isEmpty then chain else [name] :: chain
    let inner := (params.map (·.1) ++ declared body) :: around
    usesOfParams inner params ++ usesOfBody inner body
  | .assign object _ value => object.uses chain ++ value.uses chain
  | .ternary condition chosen otherwise =>
    condition.uses chain ++ chosen.uses chain ++ otherwise.uses chain

def usesOfAll (chain : Chain) : List Expr → List Use
  | [] => []
  | x :: xs => x.uses chain ++ usesOfAll chain xs

def usesOfProperties (chain : Chain) : List (String × Expr) → List Use
  | [] => []
  | (_, x) :: properties => x.uses chain ++ usesOfProperties chain properties

def usesOfParams (chain : Chain) : List (String × Option Expr) → List Use
  | [] => []
  | (_, none) :: params => usesOfParams chain params
  | (_, some x) :: params => x.uses chain ++ usesOfParams chain params

def Stmt.uses (chain : Chain) : Stmt → List Use
  | .expr x | .ret x | .var _ x => x.uses chain
  | .function _ params body =>
    let inner := (params.map (·.1) ++ declared body) :: chain
    usesOfParams inner params ++ usesOfBody inner body
  | .missing => []

def usesOfBody (chain : Chain) : List Stmt → List Use
  | [] => []
  | s :: body => s.uses chain ++ usesOfBody chain body

end

/-- A name that is meant for a declaration, or for a global one, stands for something else. -/
def isCaptured (name : String) (meant : Option Declaration) : Chain → Bool
  | [] => false
  | frame :: outer =>
    match meant with
    | none => frame.contains name || isCaptured name none outer
    | some d =>
      if outer.length = d.depth then (frame.eraseIdx d.index).contains name
      else frame.contains name || isCaptured name (some d) outer

/-- The declaration is one of that name, by a function around the place. -/
def IsDeclared (name : String) (d : Declaration) : Chain → Prop
  | [] => False
  | frame :: outer =>
    if outer.length = d.depth then frame[d.index]? = some name else IsDeclared name d outer

section

variable {name : String} {d : Declaration} {chain : Chain} {frame : List String} {i : Nat}

theorem IsDeclared.depth_lt (h : IsDeclared name d chain) : d.depth < chain.length := by
  induction chain with
  | nil => exact h.elim
  | cons frame outer ih =>
    rw [length_cons]
    by_cases hdepth : outer.length = d.depth
    · omega
    · rw [IsDeclared, if_neg hdepth] at h
      have := ih h
      omega

/-- Another function around the place leaves the ones further out alone. -/
theorem IsDeclared.enter (h : IsDeclared name d chain) (frame : List String) :
    IsDeclared name d (frame :: chain) := by
  rw [IsDeclared, if_neg (Nat.ne_of_gt h.depth_lt)]
  exact h

theorem isDeclared_head (h : frame[i]? = some name) :
    IsDeclared name ⟨chain.length, i⟩ (frame :: chain) := by
  rw [IsDeclared, if_pos rfl]
  exact h

theorem mem_places : i ∈ places name frame ↔ frame[i]? = some name := by
  rw [places, mem_filter, mem_range, decide_eq_true_eq]
  constructor
  · exact fun h => h.2
  · intro h
    exact ⟨(List.getElem?_eq_some_iff.mp h).1, h⟩

/-- A name has one place exactly if it is gone without it. -/
theorem places_eq_singleton (h : frame[i]? = some name) :
    places name frame = [i] ↔ name ∉ frame.eraseIdx i := by
  have hnodup : (places name frame).Nodup := nodup_range.filter _
  rw [← perm_singleton, perm_ext_iff_of_nodup hnodup (nodup_singleton i), mem_eraseIdx_iff_getElem?]
  constructor
  · rintro hplaces ⟨j, hne, hj⟩
    exact hne (mem_singleton.mp ((hplaces j).mp (mem_places.mpr hj)))
  · intro hother j
    rw [mem_places, mem_singleton]
    constructor
    · intro hj
      by_contra hne
      exact hother ⟨j, hne, hj⟩
    · rintro rfl
      exact h

theorem resolve_global (name : String) (chain : Chain) :
    resolve chain name = none ↔ isCaptured name none chain = false := by
  induction chain with
  | nil => exact ⟨fun _ => rfl, fun _ => rfl⟩
  | cons frame outer ih =>
    by_cases hmem : name ∈ frame
    · simp [resolve, isCaptured, hmem]
    · simp [resolve, isCaptured, hmem, ih]

/-- A name stands for the declaration that it is meant for unless it is captured. -/
theorem resolve_eq_some_iff (h : IsDeclared name d chain) :
    resolve chain name = some d.variable ↔ isCaptured name (some d) chain = false := by
  induction chain with
  | nil => exact h.elim
  | cons frame outer ih =>
    by_cases hdepth : outer.length = d.depth
    · rw [IsDeclared, if_pos hdepth] at h
      have hmem : name ∈ frame := mem_of_getElem? h
      rw [resolve, if_pos hmem, isCaptured, if_pos hdepth, Option.some.injEq,
        Declaration.variable, Variable.mk.injEq, places_eq_singleton h, Bool.eq_false_iff, ne_eq,
        contains_iff_mem]
      exact ⟨fun heq => heq.2, fun hother => ⟨hdepth, hother⟩⟩
    · rw [IsDeclared, if_neg hdepth] at h
      rw [resolve, isCaptured, if_neg hdepth]
      by_cases hmem : name ∈ frame
      · have hne : (⟨outer.length, places name frame⟩ : Variable) ≠ d.variable :=
          fun heq => hdepth (congrArg Variable.depth heq)
        simp [hmem, hne]
      · simp [hmem, ih h]

end

end Stencil.Script
