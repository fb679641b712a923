import Mathlib.Data.List.Induction
import Stencil.Proofs.Markup.Contribution

/-!
# Lowered expressions have the values of their templates

An expression is looked at in two environments at once, one of the code and one of the template. It
has the same value in both if they agree on the names that it refers to, and if the name `String`
stands for the same function.
-/
namespace Stencil

open Script (Interpretation Env)
open List

namespace Script.Interpretation

variable {V : Type} (I : Interpretation V) (env : Env V)

theorem evalItems_eq_map (xs : List Expr) : I.evalItems env xs = xs.map (I.eval env) := by
  induction xs with
  | nil => rfl
  | cons x xs ih => rw [evalItems, ih, map_cons]

theorem evalProperties_eq_map (ps : List (String × Expr)) :
    I.evalProperties env ps = ps.map fun p => (p.1, I.eval env p.2) := by
  induction ps with
  | nil => rfl
  | cons p ps ih => rw [evalProperties, ih, map_cons]

theorem eval_call {f : Expr} (hf : ∀ object name, f ≠ .attribute object name)
    (arguments : List Expr) :
    I.eval env (.call f arguments) = I.call (I.eval env f) (I.evalItems env arguments) := by
  rw [eval]
  · intro object method _ params body h
    exact absurd h (hf object method)
  · exact hf

theorem eval_method (object : Expr) (method : String) {arguments : List Expr}
    (h : ∀ name params body, arguments ≠ [.function name params body]) :
    I.eval env (.call (.attribute object method) arguments) =
      I.method (I.eval env object) method (I.evalItems env arguments) := by
  rw [eval]
  exact h

theorem eval_concat (first : Expr) (rest : List Expr) :
    I.eval env (Expr.concat first rest) =
      (rest.map (I.eval env)).foldl (I.operate (.arith .add)) (I.eval env first) := by
  induction rest generalizing first with
  | nil => rfl
  | cons x rest ih =>
    rw [Expr.concat, foldl_cons, ← Expr.concat, ih, map_cons, foldl_cons, eval]

end Script.Interpretation

/-- A sum is its first part, or an operation. -/
theorem Script.Expr.concat_cases (first : Script.Expr) (rest : List Script.Expr) :
    concat first rest = first ∨ ∃ op left right, concat first rest = .operation op left right := by
  induction rest using reverseRecOn with
  | nil => exact .inl rfl
  | append_singleton rest x _ =>
    rw [concat, foldl_append]
    exact .inr ⟨_, _, _, rfl⟩

/-- A text is lowered to a string, to a call or to an operation. -/
theorem concatenation_cases (segments : List Segment) :
    (∃ t, concatenation (lowerSegments segments) = .string t) ∨
      (∃ f arguments, concatenation (lowerSegments segments) = .call f arguments) ∨
      ∃ op left right, concatenation (lowerSegments segments) = .operation op left right := by
  cases segments with
  | nil => exact .inl ⟨"", rfl⟩
  | cons first rest =>
    cases first with
    | text t =>
      rcases Script.Expr.concat_cases (.string t) (lowerSegments rest) with h | h
      · exact .inl ⟨t, h⟩
      · exact .inr (.inr h)
    | expr x =>
      rcases Script.Expr.concat_cases (.call (.name "String") [x.lower]) (lowerSegments rest)
        with h | h
      · exact .inr (.inl ⟨_, _, h⟩)
      · exact .inr (.inr h)

/-- Only attributes are lowered to attributes. -/
theorem Expr.lower_ne_attribute {x : Expr} (h : ∀ p y n, x ≠ .attribute p y n)
    (object : Script.Expr) (name : String) : x.lower ≠ .attribute object name := by
  cases x with
  | «attribute» p y n => exact absurd rfl (h p y n)
  | format p segments =>
    rw [Expr.lower]
    rcases concatenation_cases segments with ⟨_, h⟩ | ⟨_, _, h⟩ | ⟨_, _, _, h⟩ <;>
      (rw [h]; intro heq; cases heq)
  | _ => rw [Expr.lower]; intro heq; cases heq

/-- Templates have no functions in them. -/
theorem Expr.lower_ne_function (x : Expr) (name : String)
    (params : List (String × Option Script.Expr)) (body : List Script.Stmt) :
    x.lower ≠ .function name params body := by
  cases x with
  | format p segments =>
    rw [Expr.lower]
    rcases concatenation_cases segments with ⟨_, h⟩ | ⟨_, _, h⟩ | ⟨_, _, _, h⟩ <;>
      (rw [h]; intro heq; cases heq)
  | _ => rw [Expr.lower]; intro heq; cases heq

theorem lowerAll_ne_function (xs : List Expr) (name : String)
    (params : List (String × Option Script.Expr)) (body : List Script.Stmt) :
    lowerAll xs ≠ [.function name params body] := by
  intro h
  match xs with
  | [] => cases h
  | x :: xs => exact x.lower_ne_function name params body (cons.inj h).1

namespace Rendering

variable {V : Type} (R : Rendering V)

theorem eval_concatenation (env : Env V) (xs : List Script.Expr) :
    R.eval env (concatenation xs) = R.sum (xs.map (R.eval env)) := by
  cases xs with
  | nil => rw [concatenation, Interpretation.eval]; rfl
  | cons x xs => exact R.eval_concat env x xs

theorem value_call {f : Expr} (h : ∀ p y n, f ≠ .attribute p y n) (env : Env V) (p : Position)
    (arguments : List Expr) :
    R.value env (.call p f arguments) = R.call (R.value env f) (R.values env arguments) := by
  rw [value]
  exact fun position object method => h position object method

variable {R} {ρ σ : Env V}

mutual

theorem eval_lower (htext : ρ "String" = R.toText) (x : Expr) (h : ∀ n ∈ x.names, ρ n = σ n) :
    R.eval ρ x.lower = R.value σ x := by
  match x with
  | .name _ name => exact h name mem_cons_self
  | .string .. | .number .. => rfl
  | .new _ operand => exact congrArg R.construct (eval_lower htext operand h)
  | .not _ operand => exact congrArg R.negate (eval_lower htext operand h)
  | .and _ left right | .or _ left right | .item _ left right | .arithmetic _ _ left right
  | .relation _ _ left right =>
    obtain ⟨hl, hr⟩ := forall_mem_append.mp h
    rw [Expr.lower, Interpretation.eval, value, eval_lower htext left hl, eval_lower htext right hr]
  | .attribute _ object name => exact congrArg (R.member · name) (eval_lower htext object h)
  | .call p f arguments =>
    obtain ⟨hf, ha⟩ := forall_mem_append.mp h
    have hargs := evalItems_lowerAll htext arguments ha
    have hfun := eval_lower htext f hf
    rw [Expr.lower]
    by_cases hattr : ∃ p y n, f = .attribute p y n
    · obtain ⟨p, y, n, rfl⟩ := hattr
      have hy := eval_lower htext y hf
      rw [Expr.lower, R.eval_method ρ y.lower n (lowerAll_ne_function arguments), hy, hargs, value]
    · have hne : ∀ p y n, f ≠ .attribute p y n := fun p y n hn => hattr ⟨p, y, n, hn⟩
      rw [R.eval_call ρ (Expr.lower_ne_attribute hne), R.value_call hne, hfun, hargs]
  | .format _ segments =>
    rw [Expr.lower, eval_concatenation, value, eval_lowerSegments htext segments h]
  | .dictionary _ items =>
    rw [Expr.lower, Interpretation.eval, value, evalProperties_lowerItems htext items h]
  | .list _ items => rw [Expr.lower, Interpretation.eval, value, evalItems_lowerAll htext items h]

theorem evalItems_lowerAll (htext : ρ "String" = R.toText) (xs : List Expr)
    (h : ∀ n ∈ namesOfAll xs, ρ n = σ n) :
    R.evalItems ρ (lowerAll xs) = R.values σ xs := by
  match xs with
  | [] => rfl
  | x :: xs =>
    obtain ⟨hx, hxs⟩ := forall_mem_append.mp h
    rw [lowerAll, Interpretation.evalItems, values, eval_lower htext x hx,
      evalItems_lowerAll htext xs hxs]

theorem evalProperties_lowerItems (htext : ρ "String" = R.toText) (items : List (String × Expr))
    (h : ∀ n ∈ namesOfItems items, ρ n = σ n) :
    R.evalProperties ρ (lowerItems items) = R.itemValues σ items := by
  match items with
  | [] => rfl
  | (key, x) :: items =>
    obtain ⟨hx, hxs⟩ := forall_mem_append.mp h
    rw [lowerItems, Interpretation.evalProperties, itemValues, eval_lower htext x hx,
      evalProperties_lowerItems htext items hxs]

theorem eval_lowerSegments (htext : ρ "String" = R.toText) (segments : List Segment)
    (h : ∀ n ∈ namesOfSegments segments, ρ n = σ n) :
    (lowerSegments segments).map (R.eval ρ) = R.pieces σ segments := by
  match segments with
  | [] => rfl
  | .text t :: rest =>
    rw [lowerSegments, map_cons, pieces, eval_lowerSegments htext rest h]
    rfl
  | .expr x :: rest =>
    obtain ⟨hx, hxs⟩ := forall_mem_append.mp h
    have hcall : R.eval ρ (.call (.name "String") [x.lower]) = R.call R.toText [R.value σ x] := by
      rw [R.eval_call ρ (by intro object name heq; cases heq), Interpretation.eval, htext,
        Interpretation.evalItems, Interpretation.evalItems, eval_lower htext x hx]
    rw [lowerSegments, map_cons, pieces, eval_lowerSegments htext rest hxs, hcall]

end

end Rendering
end Stencil
