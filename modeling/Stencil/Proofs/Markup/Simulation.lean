import Stencil.Proofs.Markup.Scene

/-!
# Lowered blocks do what their templates say

The function that a block is lowered to gives, for all arguments, the node that the template means.
The proof walks over the statements. A body is compared in the environment at its end, because the
code builds nodes and handlers after it has set all its variables: what stands before a variable in
the template does not refer to it.
-/
namespace Stencil

open Script (Interpretation Env)
open Contribution (ofBody ofLink ofLinks)
open Script.Interpretation (eval evalProperties_eq_map evalItems_eq_map)
open Statement (allPlaced bodyScoped bodyBinders declares)
open List

namespace Script.Interpretation

variable {V : Type} (I : Interpretation V)

/-- Sets variables one after another. -/
def run (env : Env V) (vars : List (String × Expr)) : Env V :=
  vars.foldl (fun env x => Function.update env x.1 (I.eval env x.2)) env

theorem run_of_not_mem {vars : List (String × Expr)} {n : String} (h : n ∉ vars.map (·.1))
    (env : Env V) : I.run env vars n = env n := by
  induction vars generalizing env with
  | nil => rfl
  | cons x vars ih =>
    obtain ⟨hx, hvars⟩ := not_or.mp (mem_cons.not.mp h)
    rw [run, foldl_cons, ← run, ih hvars, Function.update_of_ne hx]

theorem run_append (env : Env V) (first rest : List (String × Expr)) :
    I.run env (first ++ rest) = I.run (I.run env first) rest :=
  foldl_append

theorem evalBody_vars (env : Env V) (vars : List (String × Expr)) (x : Expr) :
    I.evalBody env (vars.map (fun v => .var v.1 v.2) ++ [.ret x]) = I.eval (I.run env vars) x := by
  induction vars generalizing env with
  | nil => rw [map_nil, nil_append, evalBody]; rfl
  | cons v vars ih =>
    rw [map_cons, cons_append, evalBody, ih]
    rfl

end Script.Interpretation

variable {V : Type} {R : Rendering V} {v : Visibility} {ρ σ : Env V} {k : Script.Expr} {key : V}
  {body : List Statement} {nodes : List Script.Expr} {p : Parts V} {params : List String}
  {n : String}

/-- Values of the parts of an object. -/
def Rendering.evalPairs (R : Rendering V) (env : Env V) (pairs : List (String × Script.Expr)) :
    List (String × V) :=
  pairs.map fun p => (p.1, R.eval env p.2)

/-- In functions of old nodes no expression may refer to the variables that are made up. -/
theorem Visibility.not_allows_stream (hinner : v.inner) (m : Nat) :
    v.allows (streamName m) = false := by
  simp [allows, hinner, isSynthetic, isStreamName_streamName]

/-- No expression may refer to the variables that a body has yet to set. -/
theorem Fresh.not_allows_var {place : Place} {n : Nat}
    (hfresh : Fresh v (bodyBinders body))
    (hplaced : allPlaced place body)
    (hinner : place = .element → body.any declares → v.inner) {d : String}
    (hd : d ∈ (ofBody n body).vars.map (·.1)) : v.allows d = false := by
  rcases Contribution.ofBody_vars hplaced hd with hbinder | ⟨⟨m, _, rfl⟩, helement⟩
  · exact hfresh.not_allows hbinder
  · have hdeclares : body.any declares := by
      cases hb : body.any declares with
      | true => rfl
      | false => rw [Contribution.ofBody_vars_eq_nil.mpr hb] at hd; cases hd
    exact v.not_allows_stream (hinner helement hdeclares) m

namespace Scene

/-- The scene at the end of a body, for what stands before. -/
theorem run (h : Scene R v ρ σ k key) {place : Place} (n : Nat) {body : List Statement}
    (hplaced : allPlaced place body)
    (hfresh : Fresh v (bodyBinders body))
    (hinner : place = .element → body.any declares → v.inner) :
    Scene R v (R.run ρ (ofBody n body).vars) σ k key := by
  refine h.move rfl rfl fun d hd => ⟨hd, R.run_of_not_mem (fun hmem => ?_) ρ⟩
  rw [hfresh.not_allows_var hplaced hinner hmem] at hd
  cases hd

theorem handler_eq (h : Scene R v ρ σ k key) {stream : Script.Expr} {a : V}
    (hstream : R.eval ρ stream = a) {filter value : Option Expr}
    (hfilter : filter.all v.covers) (hvalue : value.all v.covers) :
    R.eval ρ (streamHandler stream filter value) = R.handler σ a filter value := by
  have hcallback : ∀ {x : Expr}, v.covers x → ∀ (s : Script.Expr) (method : String),
      R.eval ρ (.call (.attribute s method) [.function "" [("ev", none)] [.ret x.lower]]) =
        R.visit (R.eval ρ s) method
          fun args => R.value (Function.update σ "ev" (args.headD R.undefined)) x := by
    intro x hx s method
    rw [eval]
    refine congrArg _ (funext fun args => ?_)
    rw [Interpretation.evalBody, ← h.event_value hx]
    rfl
  rw [streamHandler, eval, Rendering.handler.eq_def]
  refine congrArg (R.member · "handle_event") ?_
  cases filter with
  | none =>
    cases value with
    | none => exact hstream
    | some x =>
      rw [Option.elim_none, Option.elim_some, hcallback hvalue, hstream]
  | some y =>
    cases value with
    | none =>
      rw [Option.elim_none, Option.elim_some, hcallback hfilter, hstream]
    | some x =>
      rw [Option.elim_some, Option.elim_some, hcallback hfilter, hcallback hvalue, hstream]

/-- A made up variable does not disturb expressions in functions of old nodes. -/
theorem setStream (h : Scene R v ρ σ k key) (hinner : v.inner) (n : Nat) (a : V) :
    Scene R v (Function.update ρ (streamName n) a) σ k key := by
  refine h.move rfl rfl fun d hd => ⟨hd, Function.update_of_ne ?_ _ _⟩
  rintro rfl
  rw [v.not_allows_stream hinner] at hd
  cases hd

variable {links : List Link}

/-- Handlers of links, in an environment `final` that has kept the variables of the links. -/
theorem links_eq {final : Env V} (hfinal : Scene R v final σ k key)
    (hscoped : links.all (·.isScoped v)) {n : Nat} (h : Scene R v ρ σ k key)
    (hinner : links.any Link.isMulti → v.inner)
    (hkept : ∀ d ∈ (ofLinks n links).vars.map (·.1),
      final d = R.run ρ (ofLinks n links).vars d) :
    R.evalPairs final (ofLinks n links).handlers =
      links.flatMap (R.linkHandlers σ) := by
  induction links generalizing n ρ with
  | nil => rfl
  | cons link links ih =>
    rw [all_cons, Bool.and_eq_true] at hscoped
    rw [ofLinks, Contribution.handlers_append, Rendering.evalPairs, map_append,
      flatMap_cons]
    rw [ofLinks, Contribution.vars_append, R.run_append, map_append] at hkept
    cases link with
    | single event filter target =>
      obtain ⟨hfilter, htarget⟩ := Bool.and_eq_true_iff.mp hscoped.1
      obtain ⟨htarget, hvalue⟩ := Bool.and_eq_true_iff.mp htarget
      refine congrArg₂ _ ?_ (ih hscoped.2 h hinner hkept)
      rw [ofLink, map_singleton,
        hfinal.handler_eq (hfinal.value_eq htarget) hfilter hvalue]
      rfl
    | multi entries target =>
      obtain ⟨hfilters, htarget⟩ := Bool.and_eq_true_iff.mp hscoped.1
      obtain ⟨htarget, hvalue⟩ := Bool.and_eq_true_iff.mp htarget
      have hin : v.inner := hinner rfl
      have hrun : R.run ρ (ofLink n (.multi entries target)).vars =
          Function.update ρ (streamName n) (R.value σ target.target) := by
        rw [← h.value_eq htarget]
        rfl
      rw [hrun] at hkept
      have hstream : final (streamName n) = R.value σ target.target := by
        rw [hkept _ mem_cons_self, R.run_of_not_mem, Function.update_self]
        intro hd
        obtain ⟨m, hlow, _, hm⟩ := Contribution.ofLinks_vars hd
        have hnm := streamName_injective hm
        change n + 1 ≤ m at hlow
        omega
      refine congrArg₂ _ ?_ (ih hscoped.2 (h.setStream hin n _) (fun _ => hin)
        fun d hd => hkept d (mem_append_right _ hd))
      rw [ofLink, map_map, Rendering.linkHandlers]
      refine map_congr_left fun e he => ?_
      have hmember : R.eval final (.attribute (.name (streamName n)) e.member) =
          R.member (R.value σ target.target) e.member := by
        rw [eval, eval, hstream]
      rw [Function.comp_apply, hfinal.handler_eq hmember (all_eq_true.mp hfilters e he) hvalue]

theorem runLinks (h : Scene R v ρ σ k key) (n : Nat) (hinner : links.any Link.isMulti → v.inner) :
    Scene R v (R.run ρ (ofLinks n links).vars) σ k key := by
  cases hmulti : links.any Link.isMulti with
  | false => rw [Contribution.ofLinks_vars_eq_nil.mpr hmulti]; exact h
  | true =>
    refine h.move rfl rfl fun d hd => ⟨hd, R.run_of_not_mem (fun hmem => ?_) ρ⟩
    obtain ⟨m, _, _, rfl⟩ := Contribution.ofLinks_vars hmem
    rw [v.not_allows_stream (hinner hmulti)] at hd
    cases hd

theorem spaced_eq (R : Rendering V) (ρ : Env V) (first : Script.Expr) (rest : List Script.Expr) :
    R.eval ρ (Element.spaced first rest) =
      (rest.map (R.eval ρ)).foldl (fun sum part => R.add (R.add sum (R.string " ")) part)
        (R.eval ρ first) := by
  induction rest generalizing first with
  | nil => rfl
  | cons part rest ih =>
    rw [Element.spaced, foldl_cons, ← Element.spaced, ih, map_cons, foldl_cons,
      Interpretation.eval_concat]
    rfl

/-- Code has the fixed classes that the template means. -/
theorem fixedClasses_eq (scope : BlockScope) (name : String) (classes : List ClassClause) :
    Element.fixedClasses scope name classes = Rendering.fixedClasses scope name classes := by
  rw [Element.fixedClasses, Rendering.fixedClasses]
  refine congrArg (· ++ _) (if_congr ?_ rfl rfl)
  simp

section Classes

variable (h : Scene R v ρ σ k key) (scope : BlockScope) (name : String)
  {classes : List ClassClause} (hclasses : classes.all (·.condition.all v.covers))
  {attributes : List (String × Expr)}
  (hattributes : attributes.all (fun a => v.covers a.2))

include h hclasses hattributes

theorem classParts_eq :
    (Element.classParts scope name classes attributes).map (R.eval ρ) =
      R.classParts scope σ name classes attributes := by
  have hconditional : ∀ c ∈ classes,
      (Element.conditionalClass c).map (R.eval ρ) = R.conditionalClass σ c := by
    intro c hc
    rw [Element.conditionalClass, Rendering.conditionalClass, Option.map_map]
    cases hx : c.condition with
    | none => rfl
    | some x =>
      have hcovers := all_eq_true.mp hclasses c hc
      rw [hx] at hcovers
      rw [Option.map_some, Option.map_some, Function.comp_apply, eval,
        h.value_eq hcovers]
      rfl
  rw [Element.classParts, Rendering.classParts, fixedClasses_eq, map_append, map_append,
    map_filterMap, map_map]
  refine congrArg₂ _ (congrArg₂ _ ?_ ?_) ?_
  · split <;> rfl
  · exact filterMap_congr hconditional
  · refine map_congr_left fun a ha => ?_
    exact h.value_eq (all_eq_true.mp hattributes a (mem_filter.mp ha).1)

theorem attributes_eq :
    R.evalPairs ρ (Element.attributeObject scope name classes attributes) =
      R.attributeValues scope σ name classes attributes := by
  have hparts := h.classParts_eq scope name hclasses hattributes
  have hothers : R.evalPairs ρ
      ((attributes.filter (·.1 ≠ "class")).map fun a => (a.1, a.2.lower)) =
      (attributes.filter (·.1 ≠ "class")).map fun a => (a.1, R.value σ a.2) := by
    rw [Rendering.evalPairs, map_map]
    refine map_congr_left fun a ha => ?_
    rw [Function.comp_apply, h.value_eq (all_eq_true.mp hattributes a (mem_filter.mp ha).1)]
  rw [Element.attributeObject, Rendering.attributeValues, ← hparts]
  cases Element.classParts scope name classes attributes with
  | nil => exact hothers
  | cons first rest =>
    dsimp only [map_cons]
    rw [Rendering.evalPairs, map_append, ← Rendering.evalPairs, hothers, map_singleton, spaced_eq]
    rfl

end Classes

theorem events_eq (R : Rendering V) (ρ : Env V) (handlers : List (String × Script.Expr)) :
    R.eval ρ (EventTable.object (grouped handlers)) = R.events (R.evalPairs ρ handlers) := by
  rw [EventTable.object, eval, evalProperties_eq_map, map_map,
    Rendering.events, Rendering.evalPairs, EventTable.grouped_map, map_map]
  refine congrArg _ (map_congr_left fun group _ => ?_)
  obtain ⟨event, handlers⟩ := group
  match handlers with
  | [handler] => rfl
  | [] | _ :: _ :: _ =>
    simp only [Function.comp_apply, eval, evalItems_eq_map,
      map_cons, map_nil]

theorem gather_eq (h : Scene R v ρ σ k key) (single : Bool) (nodes : List Script.Expr) :
    R.eval ρ (Fragment.assemble single (some k) nodes) =
      R.gather single key (nodes.map (R.eval ρ)) := by
  rw [Fragment.assemble, Rendering.gather]
  cases single with
  | true => cases nodes <;> rfl
  | false =>
    rw [if_neg (by decide), if_neg (by decide), eval,
      evalProperties_eq_map]
    simp only [Element.keyProperty, cons_append, nil_append, map_cons, map_nil,
      eval, evalItems_eq_map, h.key_eq]

end Scene

/-- Code for the parts of a body, with the values that the template gives them. -/
structure PartsMatch (R : Rendering V) (env : Env V) (nodes : List Script.Expr)
    (c : Contribution) (p : Parts V) : Prop where
  nodes : nodes.map (R.eval env) = p.nodes
  stores : R.evalPairs env c.stores = p.stores
  handlers : R.evalPairs env c.handlers = p.handlers

/-- The object of an element, without the function around it. -/
theorem Scene.object_eq (h : Scene R v ρ σ k key) (scope : BlockScope) (name : String)
    {classes : List ClassClause} (hclasses : classes.all (·.condition.all v.covers))
    {attributes : List (String × Expr)}
    (hattributes : attributes.all (fun a => v.covers a.2)) (single : Bool) {c : Contribution}
    (hp : PartsMatch R ρ nodes c p) :
    R.eval ρ (.object (Element.keyProperty (some k) ++ [("tag", .string name)] ++ c.stores ++
        (if (Element.attributeObject scope name classes attributes).isEmpty then []
          else [("attrs", .object (Element.attributeObject scope name classes attributes))]) ++
        ((if nodes.isEmpty then none else some (Fragment.assemble single (some k) nodes)).toList.map
          fun x => ("children", x)) ++
        (if (grouped c.handlers).isEmpty then []
          else [("events", EventTable.object (grouped c.handlers))]))) =
      R.elementObject key name (R.attributeValues scope σ name classes attributes) single p := by
  have hattrs := h.attributes_eq scope name hclasses hattributes
  rw [eval, evalProperties_eq_map, Rendering.elementObject,
    ← hattrs, ← hp.nodes, ← hp.stores, ← hp.handlers]
  refine congrArg R.object ?_
  rw [map_append, map_append, map_append, map_append]
  refine congrArg₂ _ (congrArg₂ _ (congrArg₂ _ (congrArg₂ _ ?_ rfl) ?_) ?_) ?_
  · rw [Element.keyProperty, singleton_append, map_cons, map_singleton, h.key_eq]
    rfl
  · cases Element.attributeObject scope name classes attributes with
    | nil => rfl
    | cons a rest =>
      rw [if_neg (by simp), if_neg (by simp [Rendering.evalPairs]), map_singleton,
        eval, evalProperties_eq_map]
      rfl
  · cases nodes with
    | nil => rfl
    | cons x rest =>
      rw [if_neg (by simp), if_neg (by simp), Option.toList_some, map_singleton,
        map_singleton, h.gather_eq]
  · cases hhandlers : c.handlers with
    | nil => rfl
    | cons x rest =>
      have hne : (grouped (x :: rest)).isEmpty = false := by
        rw [Bool.eq_false_iff, ne_eq, List.isEmpty_iff, EventTable.grouped_eq_nil]
        exact cons_ne_nil x rest
      rw [hne, if_neg (by decide), if_neg (by simp [Rendering.evalPairs]), map_singleton,
        Scene.events_eq]

section Renderable

variable {s : Statement} (hs : s.isControl = false)

include hs

theorem Contribution.ofStatement_of_renderable (n : Nat) : Contribution.ofStatement n s = {} := by
  cases s <;> first | rfl | cases hs

theorem Statement.bodyScoped_of_renderable (v : Visibility) (rest : List Statement) :
    bodyScoped v (s :: rest) = (s.isScoped v && bodyScoped v rest) := by
  cases s <;> first | rfl | cases hs

theorem Rendering.parts_of_renderable (R : Rendering V) (scope : BlockScope) (σ : Env V) (old : V)
    (single : Bool) (key : V) (i : Nat) (rest : List Statement) :
    R.parts scope σ old single key i (s :: rest) =
      { R.parts scope σ old single key (i + 1) rest with
        nodes := R.node scope σ (if single then key else R.branchKey key i) s ::
          (R.parts scope σ old single key (i + 1) rest).nodes } := by
  cases s <;> first | rfl | cases hs

end Renderable

/-- The scene in a function of the old node. -/
theorem Scene.enterElement (h : Scene R v ρ σ k key) (hplaced : allPlaced .element body)
    (hfresh : Fresh v (bodyBinders body)) (hdeclares : body.any declares)
    (old : V) :
    Scene R (v.enter body)
      (Function.update (R.hide ρ ((ofBody 0 body).vars.map (·.1))) "old_node" old)
      σ k key := by
  have hinner : (v.enter body).inner := by
    rw [Visibility.enter, hdeclares, Bool.or_true]
  refine h.move rfl rfl fun d hd => ⟨?_, ?_⟩
  · simp only [Visibility.allows, Visibility.enter, Bool.and_eq_true] at hd ⊢
    refine ⟨hd.1, ?_⟩
    have hd2 := hd.2
    rw [hdeclares] at hd2
    simp only [Bool.or_true, Bool.true_and, Bool.not_eq_true'] at hd2
    rw [hd2, Bool.and_false]
    rfl
  · have hold : d ≠ "old_node" := by
      rintro rfl
      have hsynthetic : isSynthetic "old_node" := by decide
      simp [Visibility.allows, hinner, hsynthetic] at hd
    have hvar : d ∉ (ofBody 0 body).vars.map (·.1) := by
      intro hmem
      rw [hfresh.enter.not_allows_var hplaced (fun _ _ => hinner) hmem] at hd
      cases hd
    rw [Function.update_of_ne hold, Interpretation.hide, if_neg hvar]

theorem Visibility.enter_of_plain (v : Visibility) (hdeclares : body.any declares = false)
    : v.enter body = v := by
  rw [Visibility.enter, hdeclares, Bool.or_false]

theorem storeValue_eq {old : V} (hold : ρ "old_node" = old) (name : String) {x : Script.Expr}
    {a : V} (hx : R.eval ρ x = a) :
    R.eval ρ (.or (.and (.name "old_node") (.attribute (.name "old_node") ("store_" ++ name))) x) =
      R.storeValue old name a := by
  simp only [eval, hold, hx, Rendering.storeValue]
  by_cases hold : R.truthy old
  · simp [hold]
  · simp [hold]

/-! ## Bodies, statement by statement -/

/-- The scene in front of a body. Its statements stand where they may, refer to names in scope and
bind fresh ones, and the code has the old node at hand if variables are set. -/
structure BodyScene (R : Rendering V) (place : Place) (old : V) (v : Visibility) (ρ σ : Env V)
    (k : Script.Expr) (key : V) (body : List Statement) : Prop where
  placed : allPlaced place body
  inScope : bodyScoped v body
  fresh : Fresh v (bodyBinders body)
  scene : Scene R v ρ σ k key
  kept : place = .element → body.any declares → v.inner ∧ ρ "old_node" = old

namespace BodyScene

variable {place : Place} {old : V} {s : Statement} {rest : List Statement} {name : String}
  {links : List Link} {position : Position}

/-- The scene at the end of the body. -/
theorem run (b : BodyScene R place old v ρ σ k key body) (n : Nat) :
    Scene R v (R.run ρ (ofBody n body).vars) σ k key :=
  b.scene.run n b.placed b.fresh fun helement hdeclares => (b.kept helement hdeclares).1

/-- After a statement that binds a name. -/
theorem reveal (b : BodyScene R place old v ρ σ k key (s :: rest)) (hname : s.binders = [name])
    (hdeclares : s.declares) (hscoped : bodyScoped (v.reveal name) rest) (a : V) :
    BodyScene R place old (v.reveal name) (Function.update ρ name a) (Function.update σ name a)
      k key rest := by
  have hfresh : Fresh v (name :: bodyBinders rest) := by
    have hfresh := b.fresh
    rwa [bodyBinders, hname] at hfresh
  have hbound := hfresh.bound name mem_cons_self
  refine ⟨(Bool.and_eq_true_iff.mp b.placed).2, hscoped, hfresh.reveal,
    b.scene.reveal a hbound (hfresh.unseen name mem_cons_self), fun helement _ => ?_⟩
  obtain ⟨hinner, hold⟩ := b.kept helement (by rw [any_cons, hdeclares, Bool.true_or])
  exact ⟨hinner, by rw [Function.update_of_ne (b.scene.ne_oldNode hbound).symm, hold]⟩

theorem inner_of_multi (b : BodyScene R place old v ρ σ k key (.link position links :: rest))
    (hany : links.any Link.isMulti) : v.inner :=
  (b.kept (of_decide_eq_true (Bool.and_eq_true_iff.mp b.placed).1)
    (by rw [any_cons, declares, hany, Bool.true_or])).1

/-- After links, whose variables are set. -/
theorem afterLinks (b : BodyScene R place old v ρ σ k key (.link position links :: rest)) (n : Nat) :
    BodyScene R place old v (R.run ρ (ofLinks n links).vars) σ k key rest := by
  refine ⟨(Bool.and_eq_true_iff.mp b.placed).2, (Bool.and_eq_true_iff.mp b.inScope).2,
    b.fresh.right, b.scene.runLinks n b.inner_of_multi, fun helement hdeclares => ?_⟩
  obtain ⟨hinner, hold⟩ := b.kept helement (by rw [any_cons, hdeclares, Bool.or_true])
  refine ⟨hinner, ?_⟩
  rw [R.run_of_not_mem, hold]
  intro hmem
  obtain ⟨m, _, _, hm⟩ := Contribution.ofLinks_vars hmem
  exact absurd (hm ▸ isStreamName_streamName m) (by decide)

/-- After a statement that has a node. -/
theorem afterNode (b : BodyScene R place old v ρ σ k key (s :: rest)) (hs : s.isControl = false) :
    s.isScoped v ∧ BodyScene R place old v ρ σ k key rest := by
  have hscoped := b.inScope
  rw [Statement.bodyScoped_of_renderable hs, Bool.and_eq_true] at hscoped
  exact ⟨hscoped.1, (Bool.and_eq_true_iff.mp b.placed).2, hscoped.2, b.fresh.right, b.scene,
    fun helement hdeclares => b.kept helement (by rw [any_cons, hdeclares, Bool.or_true])⟩

end BodyScene

/-- The code for a statement gives the node that the template means. -/
def NodeMatches (R : Rendering V) (scope : BlockScope) (s : Statement) : Prop :=
  ∀ ⦃place v ρ σ k key⦄, s.isPlaced place → s.isScoped v → Fresh v s.binders →
    Scene R v ρ σ k key → R.eval ρ (s.node scope (some k)) = R.node scope σ key s

/-- The code for a body gives the parts that the template means, in the environment at its end. -/
def BodyMatches (R : Rendering V) (scope : BlockScope) (body : List Statement) : Prop :=
  ∀ ⦃place old v ρ σ k key⦄, BodyScene R place old v ρ σ k key body → ∀ (single : Bool) (n i : Nat),
    PartsMatch R (R.run ρ (ofBody n body).vars)
      (bodyNodes scope single (some k) i body) (ofBody n body)
      (R.parts scope σ old single key i body)

namespace BodyMatches

variable {scope : BlockScope} {s : Statement} {rest : List Statement}

/-- The body of a branch or a loop, which sets no variables. -/
theorem gather_eq (hbody : BodyMatches R scope body) (hplaced : allPlaced .branch body)
    (hscoped : bodyScoped v body) (hfresh : Fresh v (bodyBinders body))
    (h : Scene R v ρ σ k key) :
    R.eval ρ (fragment scope (some k) body) = R.body scope σ key body := by
  have hinside : BodyScene R _ R.undefined _ _ _ _ _ body :=
    ⟨hplaced, hscoped, hfresh, h, fun hplace => by cases hplace⟩
  have hnodes := (hbody hinside (hasOneNode body) 0 0).nodes
  rw [Contribution.ofBody_vars_eq_nil.mpr (Statement.not_declares_of_branch hplaced)] at hnodes
  rw [fragment, Fragment.isSingle_eq, h.gather_eq, Rendering.body, ← hnodes]
  rfl

theorem binding (hrest : BodyMatches R scope rest) (position : Position) (name : String) (x : Expr) :
    BodyMatches R scope (.binding position name x :: rest) := by
  intro place old v ρ σ k key b single n i
  obtain ⟨hx, hscoped⟩ := Bool.and_eq_true_iff.mp b.inScope
  have hset : R.run ρ (ofBody n (.binding position name x :: rest)).vars =
      R.run (Function.update ρ name (R.value σ x)) (ofBody (n + 1) rest).vars := by
    rw [← b.scene.value_eq hx]
    rfl
  have hparts := hrest (b.reveal rfl rfl hscoped (R.value σ x)) single (n + 1) i
  rw [← hset] at hparts
  exact ⟨hparts.nodes, hparts.stores, hparts.handlers⟩

theorem store (hrest : BodyMatches R scope rest) (position : Position) (name : String) (x : Expr) :
    BodyMatches R scope (.store position name x :: rest) := by
  intro place old v ρ σ k key b single n i
  obtain ⟨hx, hscoped⟩ := Bool.and_eq_true_iff.mp b.inScope
  obtain ⟨-, hold⟩ := b.kept (of_decide_eq_true (Bool.and_eq_true_iff.mp b.placed).1) rfl
  generalize ha : R.storeValue old name (R.value σ x) = a
  have hset : R.run ρ (ofBody n (.store position name x :: rest)).vars =
      R.run (Function.update ρ name a) (ofBody (n + 1) rest).vars := by
    rw [← ha, ← storeValue_eq hold name (b.scene.value_eq hx)]
    rfl
  have hlater := b.reveal rfl rfl hscoped a
  have hparts := hrest hlater single (n + 1) i
  have hend := hlater.run (n + 1)
  rw [← hset] at hparts hend
  have hstore : R.run ρ (ofBody n (.store position name x :: rest)).vars name = a := by
    rw [hend.agree name (hend.allows_visible mem_cons_self), Function.update_self]
  have hhandler : R.eval (R.run ρ (ofBody n (.store position name x :: rest)).vars)
      (.ternary (.attribute (.name name) "owner_destroyed")
        (.attribute (.attribute (.name name) "owner_destroyed") "handle_event")
        (.function "" [] [])) = R.destroyedHandler a := by
    simp only [eval, hstore, Rendering.destroyedHandler]
    rfl
  rw [Rendering.parts, ha]
  exact ⟨hparts.nodes, congrArg₂ cons (congrArg _ hstore) hparts.stores,
    congrArg₂ cons (congrArg _ hhandler) hparts.handlers⟩

theorem link (hrest : BodyMatches R scope rest) (position : Position) (links : List Link) :
    BodyMatches R scope (.link position links :: rest) := by
  intro place old v ρ σ k key b single n i
  obtain ⟨hlinks, -⟩ := Bool.and_eq_true_iff.mp b.inScope
  have hset : R.run ρ (ofBody n (.link position links :: rest)).vars =
      R.run (R.run ρ (ofLinks n links).vars)
        (ofBody (n + (ofLinks n links).vars.length) rest).vars :=
    R.run_append ρ _ _
  have hlater := b.afterLinks n
  have hparts := hrest hlater single (n + (ofLinks n links).vars.length) i
  have hend := hlater.run (n + (ofLinks n links).vars.length)
  rw [← hset] at hparts hend
  have hhandlers := hend.links_eq (n := n) hlinks b.scene b.inner_of_multi fun d hd => by
    rw [hset, R.run_of_not_mem]
    intro hmem
    obtain ⟨m, _, hhigh, rfl⟩ := Contribution.ofLinks_vars hd
    rcases Contribution.ofBody_vars hlater.placed hmem with hbinder | ⟨⟨m', hlow, hm⟩, _⟩
    · have hsynthetic := b.scene.not_synthetic (hlater.fresh.bound _ hbinder)
      rw [isSynthetic, isStreamName_streamName, Bool.or_true] at hsynthetic
      cases hsynthetic
    · have := streamName_injective hm
      omega
  generalize R.run ρ (ofBody n (.link position links :: rest)).vars = final
    at hparts hhandlers ⊢
  rw [Rendering.parts, ofBody, Contribution.ofStatement]
  refine ⟨hparts.nodes, ?_, ?_⟩
  · rw [Contribution.stores_append, Contribution.ofLinks_stores]
    exact hparts.stores
  · rw [Contribution.handlers_append, Rendering.evalPairs, map_append]
    exact congrArg₂ _ hhandlers hparts.handlers

theorem node (hrest : BodyMatches R scope rest) (hs : s.isControl = false)
    (hnode : NodeMatches R scope s) : BodyMatches R scope (s :: rest) := by
  intro place old v ρ σ k key b single n i
  obtain ⟨hscoped, hlater⟩ := b.afterNode hs
  have hparts := hrest hlater single n (i + 1)
  have hplaced := (Bool.and_eq_true_iff.mp b.placed).1
  have hnodes : bodyNodes scope single (some k) i (s :: rest) =
      s.node scope (Fragment.childKey single (some k) i) ::
        bodyNodes scope single (some k) (i + 1) rest := by
    rw [bodyNodes, hs]
    rfl
  rw [ofBody, Contribution.ofStatement_of_renderable hs, Contribution.empty_append,
    hnodes, Rendering.parts_of_renderable hs]
  refine ⟨?_, hparts.stores, hparts.handlers⟩
  rw [map_cons]
  refine congrArg₂ _ ?_ hparts.nodes
  cases single with
  | true => exact hnode hplaced hscoped b.fresh.left (hlater.run n)
  | false => exact hnode hplaced hscoped b.fresh.left ((hlater.run n).branch i)

end BodyMatches

namespace NodeMatches

variable {scope : BlockScope}

/-- An element whose body sets no variables is an object, any other a function of the old node. -/
theorem element (hbody : BodyMatches R scope body) (position : Position) (name : String)
    (classes : List ClassClause) (attributes : List (String × Expr)) :
    NodeMatches R scope (.element position name classes attributes body) := by
  intro place v ρ σ k key hplaced hscoped hfresh h
  rw [Statement.isPlaced] at hplaced
  rw [Statement.isScoped, Bool.and_eq_true, Bool.and_eq_true] at hscoped
  obtain ⟨⟨hclasses, hattributes⟩, hscoped⟩ := hscoped
  have hfresh : Fresh v (bodyBinders body) := hfresh
  rw [Statement.node, Rendering.node, Element.assemble, Contribution.prelude_ofBody,
    Fragment.isSingle_eq]
  cases hdeclares : body.any declares with
  | false =>
    rw [v.enter_of_plain hdeclares] at hclasses hattributes hscoped
    have hvars : (ofBody 0 body).vars = [] :=
      Contribution.ofBody_vars_eq_nil.mpr hdeclares
    have hinside : BodyScene R _ R.undefined _ _ _ _ _ body :=
      ⟨hplaced, hscoped, hfresh, h, fun _ hd => by rw [hdeclares] at hd; cases hd⟩
    have hparts := hbody hinside (hasOneNode body) 0 0
    rw [hvars] at hparts
    have hempty : (ofBody 0 body).toPrelude.statements.isEmpty := by
      rw [Contribution.toPrelude, hvars]
      rfl
    dsimp only
    rw [hempty, if_pos rfl, if_neg Bool.false_ne_true]
    exact h.object_eq scope name hclasses hattributes _ hparts
  | true =>
    have hempty : (ofBody 0 body).toPrelude.statements.isEmpty = false := by
      rw [Contribution.toPrelude, List.isEmpty_map, Bool.eq_false_iff, ne_eq, List.isEmpty_iff,
        Contribution.ofBody_vars_eq_nil, hdeclares]
      decide
    dsimp only
    rw [hempty, if_neg Bool.false_ne_true, if_pos rfl, eval]
    refine congrArg R.function (funext fun args => ?_)
    have hinner : (v.enter body).inner := by
      rw [Visibility.enter, hdeclares, Bool.or_true]
    have hin := h.enterElement hplaced hfresh hdeclares (args.headD R.undefined)
    have hinside : BodyScene R .element (args.headD R.undefined) _ _ σ k key body :=
      ⟨hplaced, hscoped, hfresh.enter, hin, fun _ _ => ⟨hinner, Function.update_self ..⟩⟩
    rw [Contribution.toPrelude, Interpretation.enter, Script.declared_vars,
      Interpretation.evalBody_vars]
    exact (hinside.run 0).object_eq scope name hclasses hattributes _
      (hbody hinside (hasOneNode body) 0 0)

/-- A loop maps its items to what its body gives for them. -/
theorem loop (hbody : BodyMatches R scope body) (position : Position) (name : String)
    (items : Expr) : NodeMatches R scope (.loop position name items body) := by
  intro place v ρ σ k key hplaced hscoped hfresh h
  obtain ⟨hitems, hscoped⟩ := Bool.and_eq_true_iff.mp hscoped
  have hitem := fun a => h.item a (hfresh.bound name mem_cons_self)
    (hfresh.unseen name mem_cons_self)
  have hcode : R.eval ρ ((Statement.loop position name items body).node scope (some k)) =
      R.visit (R.value σ items) "map" fun args =>
        R.body scope (Function.update σ name (args.headD R.undefined))
          (R.itemKey key (args.headD R.undefined)) body := by
    rw [Statement.node, eval, h.value_eq hitems]
    refine congrArg _ (funext fun args => ?_)
    rw [Interpretation.evalBody]
    exact hbody.gather_eq hplaced hscoped (Fresh.reveal hfresh) (hitem (args.headD R.undefined))
  rw [hcode, Rendering.node, Rendering.forEach]
  cases hlist : R.items (R.value σ items) with
  | none => rfl
  | some vs => exact R.visit_map _ vs _ hlist

end NodeMatches

mutual

theorem node_eq (scope : BlockScope) (s : Statement) (hs : s.isControl = false) :
    NodeMatches R scope s := by
  match s with
  | .element position name classes attributes body =>
    exact .element (body_eq scope body) position name classes attributes
  | .text _ segments =>
    intro place v ρ σ k key _ hscoped _ h
    rw [Statement.node, Rendering.node, Rendering.eval_concatenation,
      Rendering.eval_lowerSegments h.code_text segments
        fun n hn => h.agree n (all_eq_true.mp hscoped n hn)]
  | .output _ x =>
    intro place v ρ σ k key _ hscoped _ h
    exact h.value_eq hscoped
  | .choice _ branches none =>
    intro place v ρ σ k key hplaced hscoped hfresh h
    exact choice_eq scope branches 0 (Bool.and_eq_true_iff.mp hplaced).1
      (Bool.and_eq_true_iff.mp hscoped).1 hfresh.left h rfl
  | .choice _ branches (some body) =>
    intro place v ρ σ k key hplaced hscoped hfresh h
    obtain ⟨hplaced, hbodyPlaced⟩ := Bool.and_eq_true_iff.mp hplaced
    obtain ⟨hscoped, hbodyScoped⟩ := Bool.and_eq_true_iff.mp hscoped
    exact choice_eq scope branches 0 hplaced hscoped hfresh.left h
      ((body_eq scope body).gather_eq hbodyPlaced hbodyScoped hfresh.right
        (h.branch branches.length))
  | .loop position name items body => exact .loop (body_eq scope body) position name items

theorem choice_eq (scope : BlockScope) (branches : List (Expr × List Statement)) (i : Nat)
    {v : Visibility} {ρ σ : Env V} {k : Script.Expr} {key : V}
    (hplaced : Statement.branchesPlaced branches)
    (hscoped : Statement.branchesScoped v branches)
    (hfresh : Fresh v (Statement.branchBinders branches)) (h : Scene R v ρ σ k key)
    {last : Script.Expr} {a : V} (hlast : R.eval ρ last = a) :
    R.eval ρ (choiceNode scope (some k) i last branches) = R.chosen scope σ key i a branches := by
  match branches with
  | [] => exact hlast
  | (condition, body) :: rest =>
    obtain ⟨hbodyPlaced, hplaced⟩ := Bool.and_eq_true_iff.mp hplaced
    obtain ⟨hhead, hscoped⟩ := Bool.and_eq_true_iff.mp hscoped
    obtain ⟨hcondition, hbodyScoped⟩ := Bool.and_eq_true_iff.mp hhead
    have hrest := choice_eq scope rest (i + 1) hplaced hscoped hfresh.right h hlast
    rw [choiceNode, Rendering.chosen, Rendering.select, eval,
      h.value_eq hcondition, hrest]
    refine if_congr Iff.rfl ?_ rfl
    exact (body_eq scope body).gather_eq hbodyPlaced hbodyScoped hfresh.left (h.branch i)

theorem body_eq (scope : BlockScope) (body : List Statement) : BodyMatches R scope body := by
  match body with
  | [] => exact fun _ _ _ _ _ _ _ _ _ _ _ => ⟨rfl, rfl, rfl⟩
  | s :: rest =>
    have hrest : BodyMatches R scope rest := body_eq scope rest
    by_cases hs : s.isControl
    · cases s with
      | binding position name x => exact hrest.binding position name x
      | store position name x => exact hrest.store position name x
      | link position links => exact hrest.link position links
      | _ => cases hs
    · rw [Bool.not_eq_true] at hs
      exact hrest.node hs (node_eq scope s hs)

end

theorem Script.Interpretation.bindArgs_agree (I : Interpretation V) (h : n ∈ params ∨ ρ n = σ n)
    (args : List V) : I.bindArgs ρ params args n = I.bindArgs σ params args n := by
  induction params generalizing ρ σ args with
  | nil => exact h.resolve_left not_mem_nil
  | cons p params ih =>
    refine ih ?_ args.tail
    by_cases hn : n = p
    · subst hn
      exact .inr (by rw [Function.update_self, Function.update_self])
    · rw [Function.update_of_ne hn, Function.update_of_ne hn]
      exact h.imp_left fun hmem => (mem_cons.mp hmem).resolve_left hn

theorem Script.Interpretation.bindArgs_of_not_mem (I : Interpretation V) (h : n ∉ params)
    (env : Env V) (args : List V) : I.bindArgs env params args n = env n := by
  induction params generalizing env args with
  | nil => rfl
  | cons p params ih =>
    obtain ⟨hp, hparams⟩ := not_or.mp (mem_cons.not.mp h)
    rw [bindArgs, ih hparams, Function.update_of_ne hp]

/-- The scene at the start of a block. -/
theorem MarkupBlock.scene (R : Rendering V) {b : MarkupBlock}
    (hplaced : allPlaced .block b.body)
    (hplain : ∀ n ∈ b.binders, isSpecial n = false) {env : Env V} (htext : env "String" = R.toText)
    (args : List V) (text : String) :
    Scene R ⟨b.binders, b.params.map (·.name), false⟩
      (R.bindArgs (R.hide env ((ofBody 0 b.body).vars.map (·.1)))
        (b.params.map (·.name)) args)
      (R.bindArgs env (b.params.map (·.name)) args) (.string text) (R.string text) where
  plain := hplain
  inBound n hn := mem_append_left _ hn
  agree n hn := by
    refine R.bindArgs_agree ?_ args
    by_cases hparam : n ∈ b.params.map (·.name)
    · exact .inl hparam
    · refine .inr (if_neg fun hvar => ?_)
      rcases Contribution.ofBody_vars hplaced hvar with hbinder | ⟨_, helement⟩
      · have hbound : n ∈ b.binders := mem_append_right _ hbinder
        simp [Visibility.allows, hbound] at hn
        exact hparam (mem_map.mpr hn)
      · cases helement
  text := by
    rw [R.bindArgs_of_not_mem, htext]
    intro hparam
    exact absurd (hplain _ (mem_append_left _ hparam)) (by decide)
  keyed _ _ := rfl

/-- The code of a template has one function for each markup block, in order. The function of a block
gives what the template means: for all values and operators, for all values of the free names, for
all arguments, and for all old nodes that the functions in its result are called with. The block
binds no name twice and no name that its code uses for itself, and names are referred to only in
their scopes. -/
theorem MarkupBlock.apply_lower {file source : String} {t : Template}
    (hread : Template.read file source = .ok t) {b : MarkupBlock} (hb : .markup b ∈ t.blocks)
    (hdistinct : b.binders.Nodup) (hplain : ∀ n ∈ b.binders, isSpecial n = false)
    (hscoped : b.isScoped = true) (scope : BlockScope) (I : Interpretation V) (env : Env V)
    (args : List V) :
    t.lower scope = t.blocks.flatMap (Block.functions scope) ∧ b.lower scope ∈ t.lower scope ∧
      I.apply env (b.lower scope) args = Rendering.block ⟨I, env "String"⟩ scope env b args := by
  refine ⟨t.lower_eq_flatMap scope, lower_mem hb scope, ?_⟩
  have hplaced := Template.read_isPlaced hread hb
  generalize hR : (⟨I, env "String"⟩ : Rendering V) = R
  have htext : env "String" = R.toText := by rw [← hR]
  have hscene := MarkupBlock.scene R hplaced hplain htext args (scope.blockName ++ ":" ++ b.name)
  have hfresh : Fresh ⟨b.binders, b.params.map (·.name), false⟩
      (bodyBinders b.body) := by
    obtain ⟨_, hnodup, hdisjoint⟩ := List.nodup_append.mp hdistinct
    exact ⟨hnodup, fun n hn => List.mem_append_right _ hn,
      fun n hn hparam => hdisjoint n hparam n hn rfl⟩
  have hbody : BodyScene R .block R.undefined _ _ _ _ _ b.body :=
    ⟨hplaced, hscoped, hfresh, hscene, fun hplace => by cases hplace⟩
  have hparts := body_eq scope b.body hbody (hasOneNode b.body) 0 0
  have hend := hbody.run 0
  have hparams : (b.params.map lowerParam).map (·.1) = b.params.map (·.name) := by
    rw [List.map_map]
    rfl
  have hI : I = R.toInterpretation := by rw [← hR]
  rw [hI, lower, Interpretation.apply, bindings_eq hplaced, Interpretation.enter,
    Script.declared_vars, hparams, Interpretation.evalBody_vars, fragment, rootKey,
    Fragment.isSingle_eq, hend.gather_eq, hparts.nodes]
  rfl

def shopSource : String :=
  "shop(goods):\n  let n = 1\n  div\n    store s = Counter(n)\n    link \x7ba, b\x7d = bus\n" ++
  "    for g of goods:\n      p \"no \x7bs\x7d\"\n"

theorem shop_apply_lower :
    ∃ t b, Template.read "shop" shopSource = .ok t ∧ .markup b ∈ t.blocks ∧ b.binders.Nodup ∧
      (∀ n ∈ b.binders, isSpecial n = false) ∧ b.isScoped = true ∧
      ∀ (V : Type) (I : Interpretation V) (scope : BlockScope) (env : Env V) (args : List V),
        t.lower scope = t.blocks.flatMap (Block.functions scope) ∧ b.lower scope ∈ t.lower scope ∧
          I.apply env (b.lower scope) args =
            Rendering.block ⟨I, env "String"⟩ scope env b args := by
  have hcheck : ((onlyBlock (Template.read "shop" shopSource)).any fun b =>
      decide b.binders.Nodup && decide (∀ n ∈ b.binders, isSpecial n = false) && b.isScoped) =
      true := by
    decide +kernel
  obtain ⟨t, b, hread, hb, hnames⟩ := exists_of_onlyBlock hcheck
  simp only [Bool.and_eq_true, decide_eq_true_eq] at hnames
  obtain ⟨⟨hdistinct, hplain⟩, hscoped⟩ := hnames
  exact ⟨t, b, hread, hb, hdistinct, hplain, hscoped, fun V I scope env args =>
    MarkupBlock.apply_lower hread hb hdistinct hplain hscoped scope I env args⟩

/-- Values that keep the texts they were made from. -/
inductive Sketch where
  | text (text : String)
  | list (items : List Sketch)

namespace Sketch

mutual

def words : Sketch → List String
  | .text t => [t]
  | .list items => wordsOf items

def wordsOf : List Sketch → List String
  | [] => []
  | x :: xs => x.words ++ wordsOf xs

end

/-- Functions are called without an old node, and all else is kept side by side. -/
def interpretation : Interpretation Sketch where
  undefined := .text ""
  string := .text
  number := .text
  object properties := .list (properties.map (·.2))
  list := .list
  function f := f []
  member x name := .list [x, .text name]
  item x i := .list [x, i]
  call f args := .list (f :: args)
  method x name args := .list (x :: .text name :: args)
  visit x name f := match x with
    | .list items => .list (items.map fun item => f [item])
    | .text t => .list [.text t, .text name]
  construct x := x
  negate x := x
  truthy _ := true
  operate _ x y := .list [x, y]
  assign _ _ x := x
  items
    | .list items => some items
    | .text _ => none
  items_list _ := rfl
  visit_map x xs f h := by
    cases x with
    | text t => cases h
    | list items => cases h; rfl

end Sketch

/-- The variable that is made up for the target of a link captures a free name, also in a block that
binds no name at all. -/
theorem stream_captures_free_name :
    ∃ t b, Template.read "page" "f:\n  div\n    link \x7ba\x7d = s\n    = _stream_0\n" = .ok t ∧
      .markup b ∈ t.blocks ∧ b.binders = [] ∧
      ∃ (I : Interpretation Sketch) (env : Env Sketch),
        I.apply env (b.lower {}) [] ≠ Rendering.block ⟨I, env "String"⟩ {} env b [] := by
  have hcheck : ((onlyBlock (Template.read "page"
      "f:\n  div\n    link \x7ba\x7d = s\n    = _stream_0\n")).any fun b =>
      b.binders.isEmpty && decide ((Sketch.interpretation.apply .text (b.lower {}) []).words ≠
        (Rendering.block ⟨Sketch.interpretation, .text "String"⟩ {} .text b []).words)) = true := by
    decide +kernel
  obtain ⟨t, b, hread, hb, hnames⟩ := exists_of_onlyBlock hcheck
  rw [Bool.and_eq_true, List.isEmpty_iff, decide_eq_true_eq] at hnames
  exact ⟨t, b, hread, hb, hnames.1, Sketch.interpretation, .text,
    fun h => hnames.2 (congrArg Sketch.words h)⟩

end Stencil
