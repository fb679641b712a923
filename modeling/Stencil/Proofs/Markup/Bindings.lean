import Mathlib.Data.List.Perm.Basic
import Stencil.Proofs.Markup.Elements
import Stencil.Script.Gap

/-!
# Every binding is in the code once

A binding is a value, a store or the target of a link of several members. Each stands directly in the
body of a block or of an element, since none is allowed in a branch or a loop, and there it sets one
variable of the function that the block or the element becomes. The variables come in the order of
the source, and no other function of the code sets any. A store is also a property of its element and
has a handler for the end of its node; a link has one handler for each event.
-/
namespace Stencil

open Script (Stmt)
open List

/-! ## Bindings in the source -/

inductive Binding where
  | value (name : String) (value : Expr)
  | store (name : String) (value : Expr)
  | stream (entries : List LinkEntry) (target : LinkTarget)

def Link.binding? : Link → Option Binding
  | .single .. => none
  | .multi entries target => some (.stream entries target)

namespace Statement

/-- The bindings that a statement makes where it stands. -/
def bindings : Statement → List Binding
  | .binding _ name value => [.value name value]
  | .store _ name value => [.store name value]
  | .link _ links => links.filterMap Link.binding?
  | _ => []

/-- The bindings that stand directly in a body. -/
def bodyBindings (body : List Statement) : List Binding := body.flatMap bindings

def links : Statement → List Link
  | .link _ links => links
  | _ => []

/-- The links that stand directly in a body. -/
def bodyLinks (body : List Statement) : List Link := body.flatMap links

mutual

/-- What `f` finds in a statement at any depth, in branches and loops too. -/
def collect {α : Type} (f : Statement → List α) : Statement → List α
  | .element _ _ _ _ body => collectOf f body
  | .choice _ branches otherwise =>
    collectOfBranches f branches ++ (match otherwise with
      | none => []
      | some body => collectOf f body)
  | .loop _ _ _ body => collectOf f body
  | s => f s

def collectOf {α : Type} (f : Statement → List α) : List Statement → List α
  | [] => []
  | s :: rest => s.collect f ++ collectOf f rest

def collectOfBranches {α : Type} (f : Statement → List α) : List (Expr × List Statement) → List α
  | [] => []
  | (_, body) :: rest => collectOf f body ++ collectOfBranches f rest

end

end Statement

/-! ## Bindings in the code -/

namespace Binding

/-- The variable of a binding, where `n` bindings stand before it. -/
def var (n : Nat) : Binding → Stmt
  | .value name x => .var name x.lower
  | .store name x =>
    .var name (.or (.and (.name "old_node") (.attribute (.name "old_node") ("store_" ++ name))) x.lower)
  | .stream _ target => .var (streamName n) target.target.lower

/-- The property that keeps a store for the next time. -/
def property? : Binding → Option (String × Script.Expr)
  | .store name _ => some ("store_" ++ name, .name name)
  | _ => none

/-- The handlers of a binding, with their events. -/
def handlers (n : Nat) : Binding → List (String × Script.Expr)
  | .value .. => []
  | .store name _ =>
    let owner : Script.Expr := .attribute (.name name) "owner_destroyed"
    [("$destroyed", .ternary owner (.attribute owner "handle_event") (.function "" [] []))]
  | .stream entries target => entries.map fun e =>
    (e.renamed.getD e.member,
      streamHandler (.attribute (.name (streamName n)) e.member) e.filter target.value)

end Binding

def Link.handler? : Link → Option (String × Script.Expr)
  | .single event filter target =>
    some (event, streamHandler target.target.lower filter target.value)
  | .multi .. => none

namespace Statement

/-- The variables that the bindings of a body set. -/
def bodyVars (body : List Statement) : List Stmt := (bodyBindings body).mapIdx Binding.var

def bodyStores (body : List Statement) : List (String × Script.Expr) :=
  (bodyBindings body).filterMap Binding.property?

/-- The handlers of the bindings of a body, and those of its links of one event. -/
def bodyHandlers (body : List Statement) : List (String × Script.Expr) :=
  ((bodyBindings body).mapIdx Binding.handlers).flatten ++ (bodyLinks body).filterMap Link.handler?

end Statement

namespace Script

mutual

/-- The variables that the functions in an expression set, in the order of the code. The default
values of parameters are not looked at. -/
@[grind =] def Expr.vars : Expr → List Stmt
  | .string _ | .number _ | .name _ | .missing => []
  | .object properties => varsOfProperties properties
  | .list items => varsOfItems items
  | .attribute object _ => object.vars
  | .item object index => object.vars ++ index.vars
  | .call function arguments => function.vars ++ varsOfItems arguments
  | .new operand | .not operand => operand.vars
  | .and left right | .or left right | .operation _ left right => left.vars ++ right.vars
  | .function _ _ body => varsOfBody body
  | .assign object _ value => object.vars ++ value.vars
  | .ternary condition chosen otherwise => condition.vars ++ chosen.vars ++ otherwise.vars

def varsOfItems : List Expr → List Stmt
  | [] => []
  | x :: xs => x.vars ++ varsOfItems xs

def varsOfProperties : List (String × Expr) → List Stmt
  | [] => []
  | (_, x) :: properties => x.vars ++ varsOfProperties properties

/-- The variables that a statement and the functions in it set. -/
def Stmt.vars : Stmt → List Stmt
  | .expr x | .ret x => x.vars
  | .var name x => .var name x :: x.vars
  | .function _ _ body => varsOfBody body
  | .missing => []

def varsOfBody : List Stmt → List Stmt
  | [] => []
  | s :: body => s.vars ++ varsOfBody body

end

/-- An object that is made after some variables are set, if there are any. -/
def Expr.madeWith (vars : List Stmt) (object : Expr) : Expr :=
  if vars.isEmpty then object else .function "" [("old_node", none)] (vars ++ [.ret object])

def isStoreProperty (p : String × Expr) : Bool := "store_".toList.isPrefixOf p.1.toList

/-- The handlers of one event: a list of them, or one that stands for itself. -/
def Expr.asHandlers : Expr → List Expr
  | .list handlers => handlers
  | handler => [handler]

/-- The handlers in the events of an object, each with the name of its event. -/
def handlersIn (properties : List (String × Expr)) : List (String × Expr) :=
  match properties.lookup "events" with
  | some (.object table) => table.flatMap fun entry => entry.2.asHandlers.map (entry.1, ·)
  | _ => []

end Script

/-! ## What a body contributes -/

/-- What is contributed are these bindings and links, where `n` variables stand before them. -/
structure Contribution.Accounts (n : Nat) (c : Contribution) (bindings : List Binding)
    (links : List Link) : Prop where
  vars : (c.vars.map fun v => Stmt.var v.1 v.2) = bindings.mapIdx fun i b => b.var (n + i)
  stores : c.stores = bindings.filterMap Binding.property?
  handlers : c.handlers.Perm
    ((bindings.mapIdx fun i b => b.handlers (n + i)).flatten ++ links.filterMap Link.handler?)

namespace Contribution.Accounts

variable {n : Nat} {c d : Contribution} {bs bs' : List Binding} {ls ls' : List Link}

theorem length_vars (h : Accounts n c bs ls) : c.vars.length = bs.length := by
  have hlength := congrArg length h.vars
  rwa [length_map, length_mapIdx] at hlength

theorem empty (n : Nat) : Accounts n {} [] [] := ⟨rfl, rfl, .refl _⟩

theorem append (h : Accounts n c bs ls) (h' : Accounts (n + c.vars.length) d bs' ls') :
    Accounts n (c ++ d) (bs ++ bs') (ls ++ ls') where
  vars := by
    have hshift : (fun i (b : Binding) => b.var (n + (i + bs.length))) =
        fun i b => b.var (n + c.vars.length + i) := by
      funext i b
      rw [h.length_vars]
      congr 1
      omega
    rw [vars_append, map_append, h.vars, h'.vars, mapIdx_append, hshift]
  stores := by rw [stores_append, filterMap_append, h.stores, h'.stores]
  handlers := by
    have hshift : (fun i (b : Binding) => b.handlers (n + (i + bs.length))) =
        fun i b => b.handlers (n + c.vars.length + i) := by
      funext i b
      rw [h.length_vars]
      congr 1
      omega
    rw [handlers_append, mapIdx_append, hshift, flatten_append, filterMap_append]
    refine (h.handlers.append h'.handlers).trans ?_
    -- The links of the first part move past the bindings of the second.
    rw [List.append_assoc, List.append_assoc]
    refine List.Perm.append_left _ ?_
    rw [← List.append_assoc, ← List.append_assoc]
    exact perm_append_comm.append_right _

theorem ofLink (n : Nat) (link : Link) :
    Accounts n (Contribution.ofLink n link) link.binding?.toList [link] := by
  cases link with
  | single event filter target => exact ⟨rfl, rfl, .refl _⟩
  | multi entries target =>
    have hnone : [Link.multi entries target].filterMap Link.handler? = [] := rfl
    refine ⟨rfl, rfl, ?_⟩
    rw [hnone, append_nil]
    exact .of_eq (append_nil _).symm

theorem ofLinks (n : Nat) (links : List Link) :
    Accounts n (Contribution.ofLinks n links) (links.filterMap Link.binding?) links := by
  induction links generalizing n with
  | nil => exact empty n
  | cons link links ih =>
    have hcons : (link :: links).filterMap Link.binding? =
        link.binding?.toList ++ links.filterMap Link.binding? := by
      rw [filterMap_cons]
      cases link.binding? <;> rfl
    rw [hcons]
    exact (ofLink n link).append (ih _)

theorem ofStatement (n : Nat) (s : Statement) :
    Accounts n (Contribution.ofStatement n s) s.bindings s.links := by
  cases s with
  | binding _ name value => exact ⟨rfl, rfl, .refl _⟩
  | store _ name value => exact ⟨rfl, rfl, .refl _⟩
  | link _ links => exact ofLinks n links
  | element _ _ _ _ _ => exact empty n
  | text _ _ => exact empty n
  | output _ _ => exact empty n
  | choice _ _ _ => exact empty n
  | loop _ _ _ _ => exact empty n

theorem ofBody (n : Nat) (body : List Statement) :
    Accounts n (Contribution.ofBody n body) (Statement.bodyBindings body)
      (Statement.bodyLinks body) := by
  induction body generalizing n with
  | nil => exact empty n
  | cons s rest ih =>
    rw [Statement.bodyBindings, Statement.bodyLinks, flatMap_cons, flatMap_cons]
    exact (ofStatement n s).append (ih _)

end Contribution.Accounts

namespace Statement

variable (body : List Statement)

theorem statements_ofBody : (Prelude.ofBody body).statements = bodyVars body := by
  have hvars := (Contribution.Accounts.ofBody 0 body).vars
  rw [Contribution.prelude_ofBody, Contribution.toPrelude, bodyVars, hvars]
  simp only [Nat.zero_add]

theorem stores_ofBody : (Prelude.ofBody body).stores = bodyStores body := by
  rw [Contribution.prelude_ofBody]
  exact (Contribution.Accounts.ofBody 0 body).stores

theorem handlers_ofBody : (Contribution.ofBody 0 body).handlers.Perm (bodyHandlers body) := by
  have hhandlers := (Contribution.Accounts.ofBody 0 body).handlers
  simp only [Nat.zero_add] at hhandlers
  exact hhandlers

end Statement

/-! ## Variables in the code -/

namespace Script

theorem varsOfProperties_append (xs ys : List (String × Expr)) :
    varsOfProperties (xs ++ ys) = varsOfProperties xs ++ varsOfProperties ys := by
  induction xs with
  | nil => rfl
  | cons p xs ih => rw [cons_append, varsOfProperties, varsOfProperties, ih, append_assoc]

theorem propertiesGap?_append (xs ys : List (String × Expr)) :
    propertiesGap? (xs ++ ys) = (propertiesGap? xs).or (propertiesGap? ys) := by
  induction xs with
  | nil => rfl
  | cons p xs ih => rw [cons_append, propertiesGap?, propertiesGap?, ih, Option.or_assoc]

theorem varsOfBody_append (body rest : List Stmt) :
    varsOfBody (body ++ rest) = varsOfBody body ++ varsOfBody rest := by
  induction body with
  | nil => rfl
  | cons s body ih => rw [cons_append, varsOfBody, varsOfBody, ih, append_assoc]

theorem bodyGap?_eq_none {body : List Stmt} : bodyGap? body = none ↔ ∀ s ∈ body, s.gap? = none := by
  induction body with
  | nil => simp [bodyGap?]
  | cons s body ih => rw [bodyGap?, Option.or_eq_none_iff, ih, forall_mem_cons]

/-- The expression sets no variables, and no place in it was left empty. -/
def Expr.IsPlain (x : Expr) : Prop := x.vars = [] ∧ x.gap? = none

namespace Expr.IsPlain

theorem both {x y : Expr} (hx : x.IsPlain) (hy : y.IsPlain) :
    x.vars ++ y.vars = [] ∧ x.gap?.or y.gap? = none := by
  rw [hx.1, hx.2, hy.1, hy.2]
  exact ⟨rfl, rfl⟩

theorem list_iff {xs : List Expr} : (Expr.list xs).IsPlain ↔ ∀ x ∈ xs, x.IsPlain := by
  induction xs with
  | nil => simp [IsPlain, vars, varsOfItems, gap?, itemsGap?]
  | cons x xs ih =>
    rw [forall_mem_cons, ← ih]
    simp [IsPlain, vars, varsOfItems, gap?, itemsGap?, and_and_and_comm]

theorem object_iff {ps : List (String × Expr)} :
    (Expr.object ps).IsPlain ↔ ∀ p ∈ ps, p.2.IsPlain := by
  induction ps with
  | nil => simp [IsPlain, vars, varsOfProperties, gap?, propertiesGap?]
  | cons p ps ih =>
    rw [forall_mem_cons, ← ih]
    simp [IsPlain, vars, varsOfProperties, gap?, propertiesGap?, and_and_and_comm]

theorem concat {first : Expr} {rest : List Expr} (hfirst : first.IsPlain)
    (hrest : ∀ x ∈ rest, x.IsPlain) : (concat first rest).IsPlain := by
  induction rest generalizing first with
  | nil => exact hfirst
  | cons x rest ih =>
    obtain ⟨hx, hlater⟩ := forall_mem_cons.mp hrest
    exact ih (hfirst.both hx) hlater

end Expr.IsPlain

end Script

open Script (varsOfItems varsOfProperties varsOfBody itemsGap? propertiesGap? bodyGap?)
open Statement (bodyVars bodyStores bodyLinks bodyBindings bodyHandlers elementsOf)

theorem isPlain_concatenation {parts : List Script.Expr} (h : (Script.Expr.list parts).IsPlain) :
    (concatenation parts).IsPlain := by
  cases parts with
  | nil => exact ⟨rfl, rfl⟩
  | cons first rest =>
    obtain ⟨hfirst, hrest⟩ := forall_mem_cons.mp (Script.Expr.IsPlain.list_iff.mp h)
    exact hfirst.concat hrest

mutual

/-- An expression of a template has no functions in it. -/
theorem Expr.isPlain_lower (x : Expr) : x.lower.IsPlain := by
  cases x with
  | name | string | number => exact ⟨rfl, rfl⟩
  | new _ x | not _ x | «attribute» _ x _ => exact x.isPlain_lower
  | list _ xs => exact isPlain_lowerAll xs
  | dictionary _ items => exact isPlain_lowerItems items
  | format _ segments => exact isPlain_concatenation (isPlain_lowerSegments segments)
  | call _ f xs => exact f.isPlain_lower.both (isPlain_lowerAll xs)
  | and _ x y | or _ x y | item _ x y | arithmetic _ _ x y | relation _ _ x y =>
    exact x.isPlain_lower.both y.isPlain_lower

theorem isPlain_lowerAll (xs : List Expr) : (Script.Expr.list (lowerAll xs)).IsPlain := by
  match xs with
  | [] => exact ⟨rfl, rfl⟩
  | x :: xs => exact x.isPlain_lower.both (isPlain_lowerAll xs)

theorem isPlain_lowerItems (items : List (String × Expr)) :
    (Script.Expr.object (lowerItems items)).IsPlain := by
  match items with
  | [] => exact ⟨rfl, rfl⟩
  | (_, x) :: items => exact x.isPlain_lower.both (isPlain_lowerItems items)

theorem isPlain_lowerSegments (segments : List Segment) :
    (Script.Expr.list (lowerSegments segments)).IsPlain := by
  match segments with
  | [] => exact ⟨rfl, rfl⟩
  | .text _ :: segments => exact isPlain_lowerSegments segments
  | .expr x :: segments =>
    have hcall : (Script.Expr.call (.name "String") [x.lower]).IsPlain :=
      x.isPlain_lower.both (y := .list []) ⟨rfl, rfl⟩
    exact hcall.both (isPlain_lowerSegments segments)

end

theorem Expr.vars_lower (x : Expr) : x.lower.vars = [] := x.isPlain_lower.1

theorem Expr.gap?_lower (x : Expr) : x.lower.gap? = none := x.isPlain_lower.2

theorem isPlain_streamHandler {stream : Script.Expr} (h : stream.IsPlain)
    (filter value : Option Expr) : (streamHandler stream filter value).IsPlain := by
  obtain ⟨hvars, hgap⟩ := h
  cases filter <;> cases value <;>
    simp [streamHandler, Script.Expr.IsPlain, Script.Expr.vars, Script.Expr.gap?,
      varsOfItems, varsOfBody, itemsGap?, bodyGap?, Stmt.vars, Stmt.gap?, Expr.vars_lower,
      Expr.gap?_lower, hvars, hgap]

namespace Binding

/-- A binding sets its own variable and no other. -/
theorem vars_var (n : Nat) (b : Binding) : (b.var n).vars = [b.var n] := by
  cases b with
  | value name x => rw [var, Stmt.vars, x.vars_lower]
  | store name x =>
    rw [var, Stmt.vars, Script.Expr.vars, x.vars_lower]
    rfl
  | stream entries target => rw [var, Stmt.vars, target.target.vars_lower]

theorem gap?_var (n : Nat) (b : Binding) : (b.var n).gap? = none := by
  cases b with
  | value name x => exact x.gap?_lower
  | store name x => exact x.gap?_lower
  | stream entries target => exact target.target.gap?_lower

theorem isPlain_handlers (n : Nat) (b : Binding) :
    ∀ h ∈ b.handlers n, h.2.asHandlers = [h.2] ∧ h.2.IsPlain := by
  cases b with
  | value name x => intro h hh; cases hh
  | store name x =>
    intro h hh
    rw [mem_singleton.mp hh]
    exact ⟨rfl, rfl, rfl⟩
  | stream entries target =>
    intro h hh
    obtain ⟨e, -, rfl⟩ := mem_map.mp hh
    exact ⟨rfl, isPlain_streamHandler ⟨rfl, rfl⟩ _ _⟩

end Binding

namespace Statement

variable (body : List Statement)

theorem varsOfBody_bodyVars : varsOfBody (bodyVars body) = bodyVars body := by
  rw [bodyVars]
  generalize bodyBindings body = bs
  induction bs using reverseRecOn with
  | nil => rfl
  | append_singleton bs b ih =>
    rw [mapIdx_append, Script.varsOfBody_append, ih]
    congr 1
    exact (append_nil _).trans (b.vars_var _)

theorem bodyGap?_bodyVars : bodyGap? (bodyVars body) = none := by
  refine Script.bodyGap?_eq_none.mpr fun s hs => ?_
  obtain ⟨i, hi, rfl⟩ := mem_mapIdx.mp hs
  exact Binding.gap?_var _ _

/-- No handler is a list, and none sets variables or has gaps. -/
theorem isPlain_of_mem_bodyHandlers :
    ∀ h ∈ bodyHandlers body, h.2.asHandlers = [h.2] ∧ h.2.IsPlain := by
  intro h hh
  rcases mem_append.mp hh with hbinding | hlink
  · obtain ⟨hs, hhs, hh⟩ := mem_flatten.mp hbinding
    obtain ⟨i, hi, rfl⟩ := mem_mapIdx.mp hhs
    exact Binding.isPlain_handlers _ _ h hh
  · obtain ⟨link, -, hlink⟩ := mem_filterMap.mp hlink
    cases link with
    | single event filter target =>
      cases hlink
      exact ⟨rfl, isPlain_streamHandler target.target.isPlain_lower _ _⟩
    | multi entries target => cases hlink

end Statement

/-! ## Handlers in the code -/

/-- Grouping by name keeps all pairs. -/
theorem perm_grouped {α : Type} (pairs : List (String × α)) :
    ((grouped pairs).flatMap fun g => g.2.map (g.1, ·)).Perm pairs := by
  match pairs with
  | [] => exact .refl _
  | (name, a) :: pairs =>
    have hlater := perm_grouped (pairs.filter (·.1 ≠ name))
    have hsame : ((pairs.filter (·.1 = name)).map (·.2)).map (name, ·) =
        pairs.filter (·.1 = name) := by
      rw [map_map]
      refine (map_congr_left fun p hp => ?_).trans (map_id _)
      rw [← of_decide_eq_true (mem_filter.mp hp).2]
      rfl
    rw [EventTable.grouped_cons, flatMap_cons, map_cons, hsame, cons_append]
    refine (hlater.append_left _).cons _ |>.trans (.cons _ ?_)
    simpa using filter_append_perm (fun p : String × α => decide (p.1 = name)) pairs
termination_by pairs.length
decreasing_by exact Nat.lt_succ_of_le (length_filter_le _ _)

theorem mem_of_mem_grouped {α : Type} {pairs : List (String × α)} {g : String × List α}
    (hg : g ∈ grouped pairs) {a : α} (ha : a ∈ g.2) : (g.1, a) ∈ pairs :=
  (perm_grouped pairs).subset
    (mem_flatMap.mpr ⟨g, hg, mem_map.mpr ⟨a, ha, rfl⟩⟩)

/-- The handlers of a table stand in its object under their events, and set no variables there. -/
theorem EventTable.exists_object {table : EventTable}
    (h : ∀ g ∈ table, ∀ x ∈ g.2, x.asHandlers = [x] ∧ x.IsPlain) :
    ∃ properties, table.object = .object properties ∧ (Script.Expr.object properties).IsPlain ∧
      (properties.map fun entry => (entry.1, entry.2.asHandlers)) = table := by
  induction table with
  | nil => exact ⟨[], rfl, ⟨rfl, rfl⟩, rfl⟩
  | cons g table ih =>
    obtain ⟨event, handlers⟩ := g
    obtain ⟨hfirst, hlater⟩ := forall_mem_cons.mp h
    obtain ⟨properties, hobject, hplain, hhandlers⟩ := ih hlater
    have hlist : (Script.Expr.list handlers).IsPlain :=
      Script.Expr.IsPlain.list_iff.mpr fun x hx => (hfirst x hx).2
    obtain ⟨value, hvalue, hvalues, heq⟩ : ∃ value : Script.Expr, value.IsPlain ∧
        value.asHandlers = handlers ∧
        object ((event, handlers) :: table) = .object ((event, value) :: properties) := by
      injection hobject with hproperties
      subst hproperties
      rcases handlers with _ | ⟨x, _ | ⟨y, rest⟩⟩
      · exact ⟨.list [], hlist, rfl, rfl⟩
      · obtain ⟨hx, hxplain⟩ := hfirst x mem_cons_self
        exact ⟨x, hxplain, hx, rfl⟩
      · exact ⟨.list (x :: y :: rest), hlist, rfl, rfl⟩
    refine ⟨_, heq, hvalue.both hplain, ?_⟩
    rw [map_cons, hvalues, hhandlers]

/-! ## Elements in the code -/

namespace Script

theorem isStoreProperty_of_mem {body : List Statement} :
    ∀ p ∈ bodyStores body, isStoreProperty p ∧ p.2.IsPlain := by
  intro p hp
  obtain ⟨b, -, hb⟩ := mem_filterMap.mp hp
  cases b with
  | store name x =>
    cases hb
    refine ⟨?_, rfl, rfl⟩
    rw [isStoreProperty, String.toList_append, isPrefixOf_iff_prefix]
    exact prefix_append _ _
  | value name x => cases hb
  | stream entries target => cases hb

end Script

namespace Element

theorem isPlain_classParts (scope : BlockScope) (name : String) (classes : List ClassClause)
    (attributes : List (String × Expr)) :
    ∀ x ∈ classParts scope name classes attributes, x.IsPlain := by
  refine forall_mem_append.mpr ⟨forall_mem_append.mpr ⟨?_, ?_⟩, ?_⟩
  · split
    · exact fun x hx => absurd hx not_mem_nil
    · exact forall_mem_singleton.mpr ⟨rfl, rfl⟩
  · intro x hx
    obtain ⟨c, -, hc⟩ := mem_filterMap.mp hx
    obtain ⟨condition, -, rfl⟩ := Option.map_eq_some_iff.mp hc
    simp [Script.Expr.IsPlain, Script.Expr.vars, Script.Expr.gap?, condition.vars_lower,
      condition.gap?_lower]
  · intro x hx
    obtain ⟨a, -, rfl⟩ := mem_map.mp hx
    exact a.2.isPlain_lower

theorem isPlain_spaced {first : Script.Expr} {rest : List Script.Expr} (hfirst : first.IsPlain)
    (hrest : ∀ x ∈ rest, x.IsPlain) : (spaced first rest).IsPlain := by
  induction rest generalizing first with
  | nil => exact hfirst
  | cons x rest ih =>
    obtain ⟨hx, hlater⟩ := forall_mem_cons.mp hrest
    refine ih (hfirst.concat ?_) hlater
    exact forall_mem_cons.mpr ⟨⟨rfl, rfl⟩, forall_mem_singleton.mpr hx⟩

theorem isPlain_attributeObject (scope : BlockScope) (name : String) (classes : List ClassClause)
    (attributes : List (String × Expr)) :
    ∀ p ∈ attributeObject scope name classes attributes, p.2.IsPlain := by
  have hparts := isPlain_classParts scope name classes attributes
  have hothers : ∀ p ∈ (attributes.filter (·.1 ≠ "class")).map fun a => (a.1, a.2.lower),
      p.2.IsPlain := by
    intro p hp
    obtain ⟨a, -, rfl⟩ := mem_map.mp hp
    exact a.2.isPlain_lower
  rw [attributeObject]
  cases hcases : classParts scope name classes attributes with
  | nil => exact hothers
  | cons first rest =>
    rw [hcases] at hparts
    obtain ⟨hfirst, hrest⟩ := forall_mem_cons.mp hparts
    exact forall_mem_append.mpr
      ⟨hothers, forall_mem_singleton.mpr (isPlain_spaced hfirst hrest)⟩

end Element

/-- A key sets no variables and has no gap, if there is one. -/
def IsPlainKey (key : Option Script.Expr) : Prop := ∀ k ∈ key, k.IsPlain

namespace IsPlainKey

variable {key : Option Script.Expr}

theorem concat (h : IsPlainKey key) {parts : List Script.Expr} (hparts : ∀ x ∈ parts, x.IsPlain) :
    IsPlainKey (key.map (Script.Expr.concat · parts)) := by
  intro k hk
  obtain ⟨k, hmem, rfl⟩ := Option.map_eq_some_iff.mp hk
  exact (h k hmem).concat hparts

theorem branchKey (h : IsPlainKey key) (i : Nat) : IsPlainKey (branchKey key i) :=
  h.concat (forall_mem_singleton.mpr ⟨rfl, rfl⟩)

theorem itemKey (h : IsPlainKey key) (name : String) : IsPlainKey (itemKey key name) :=
  h.concat (forall_mem_cons.mpr ⟨⟨rfl, rfl⟩, forall_mem_singleton.mpr ⟨rfl, rfl⟩⟩)

theorem childKey (h : IsPlainKey key) (single : Bool) (i : Nat) :
    IsPlainKey (Fragment.childKey single key i) := by
  cases single with
  | true => exact h
  | false => exact h.branchKey i

theorem property (h : IsPlainKey key) :
    (Script.Expr.object (Element.keyProperty key)).IsPlain := by
  cases key with
  | none => exact ⟨rfl, rfl⟩
  | some k => exact (h k rfl).both (y := .object []) ⟨rfl, rfl⟩

end IsPlainKey

/-- The properties of an element in front of its events. -/
def Element.plainProperties (scope : BlockScope) (key : Option Script.Expr) (name : String)
    (classes : List ClassClause) (attributes : List (String × Expr)) (body : List Statement)
    (children : Option Script.Expr) : List (String × Script.Expr) :=
  let attributes := attributeObject scope name classes attributes
  keyProperty key ++ [("tag", .string name)] ++ bodyStores body ++
    (if attributes.isEmpty then [] else [("attrs", .object attributes)]) ++
    children.toList.map fun c => ("children", c)

namespace Element

variable (scope : BlockScope) (key : Option Script.Expr) (name : String)
  (classes : List ClassClause) (attributes : List (String × Expr)) (body : List Statement)
  (children : Option Script.Expr)

theorem mem_plainProperties {p : String × Script.Expr}
    (hp : p ∈ plainProperties scope key name classes attributes body children) :
    p ∈ bodyStores body ∨ p.1 ∈ ["key", "tag", "attrs", "children"] := by
  simp only [plainProperties, mem_append] at hp
  rcases hp with (((hp | hp) | hp) | hp) | hp
  · cases key with
    | none => cases hp
    | some k => rw [mem_singleton.mp hp]; simp
  · rw [mem_singleton.mp hp]
    simp
  · exact .inl hp
  · split at hp
    · cases hp
    · rw [mem_singleton.mp hp]
      simp
  · obtain ⟨c, -, rfl⟩ := mem_map.mp hp
    simp

theorem lookup_plainProperties :
    (plainProperties scope key name classes attributes body children).lookup "events" = none := by
  rw [lookup_eq_none_iff]
  intro p hp
  rcases mem_plainProperties scope key name classes attributes body children hp with hstore | hname
  · have hstore := (Script.isStoreProperty_of_mem p hstore).1
    rw [bne_iff_ne]
    intro heq
    rw [Script.isStoreProperty, ← heq] at hstore
    exact absurd hstore (by decide)
  · rw [bne_iff_ne]
    intro heq
    rw [← heq] at hname
    exact absurd hname (by decide)

theorem filter_plainProperties :
    (plainProperties scope key name classes attributes body children).filter Script.isStoreProperty =
      bodyStores body := by
  have hother : ∀ word ∈ ["key", "tag", "attrs", "children"],
      "store_".toList.isPrefixOf word.toList = false := by decide
  have hstores : (bodyStores body).filter Script.isStoreProperty =
      bodyStores body :=
    filter_eq_self.mpr fun p hp => (Script.isStoreProperty_of_mem p hp).1
  have hempty : ∀ ps : List (String × Script.Expr),
      (∀ p ∈ ps, p.1 ∈ ["key", "tag", "attrs", "children"]) →
        ps.filter Script.isStoreProperty = [] := by
    intro ps hps
    refine filter_eq_nil_iff.mpr fun p hp => ?_
    rw [Script.isStoreProperty, hother _ (hps p hp)]
    exact Bool.false_ne_true
  have hkey := hempty (keyProperty key) (by cases key <;> simp [keyProperty])
  have htag := hempty [("tag", .string name)] (by simp)
  have hattributes := hempty (if (attributeObject scope name classes attributes).isEmpty then []
    else [("attrs", .object (attributeObject scope name classes attributes))]) (by split <;> simp)
  have hchildren := hempty (children.toList.map fun c => ("children", c)) (by simp)
  simp only [plainProperties, filter_append, hkey, htag, hstores, hattributes, hchildren,
    append_nil, nil_append]

/-- Only the children of an element may set variables or have gaps. -/
theorem plainProperties_eq (hkey : IsPlainKey key) :
    varsOfProperties (plainProperties scope key name classes attributes body children) =
        varsOfItems children.toList ∧
      propertiesGap? (plainProperties scope key name classes attributes body children) =
        itemsGap? children.toList := by
  obtain ⟨hvars, hgap⟩ : (Script.Expr.object (keyProperty key ++ [("tag", .string name)] ++
      bodyStores body ++ if (attributeObject scope name classes attributes).isEmpty then []
        else [("attrs", .object (attributeObject scope name classes attributes))])).IsPlain := by
    refine Script.Expr.IsPlain.object_iff.mpr ?_
    simp only [forall_mem_append]
    refine ⟨⟨⟨Script.Expr.IsPlain.object_iff.mp hkey.property, ?_⟩, ?_⟩, ?_⟩
    · exact forall_mem_singleton.mpr ⟨rfl, rfl⟩
    · exact fun p hp => (Script.isStoreProperty_of_mem p hp).2
    · split
      · exact fun p hp => absurd hp not_mem_nil
      · exact forall_mem_singleton.mpr (Script.Expr.IsPlain.object_iff.mpr
          (isPlain_attributeObject scope name classes attributes))
  have hchildren : varsOfProperties (children.toList.map fun c => ("children", c)) =
        varsOfItems children.toList ∧
      propertiesGap? (children.toList.map fun c => ("children", c)) = itemsGap? children.toList := by
    cases children <;> exact ⟨rfl, rfl⟩
  rw [Script.Expr.vars] at hvars
  rw [Script.Expr.gap?] at hgap
  rw [plainProperties, Script.varsOfProperties_append, Script.propertiesGap?_append, hvars, hgap,
    hchildren.1, hchildren.2]
  exact ⟨rfl, rfl⟩

theorem assemble_eq :
    assemble scope key name classes attributes (Prelude.ofBody body) children =
      .madeWith (bodyVars body)
        (.object (plainProperties scope key name classes attributes body children ++
          if (Prelude.ofBody body).events.isEmpty then []
          else [("events", (Prelude.ofBody body).events.object)])) := by
  rw [assemble, Statement.statements_ofBody, Statement.stores_ofBody]
  rfl

/-- The events of a body are the handlers that it contributes, by their names. -/
theorem exists_events : ∃ table, (Prelude.ofBody body).events.object = .object table ∧
    (Script.Expr.object table).IsPlain ∧ (table.map fun entry => (entry.1, entry.2.asHandlers)) =
      grouped (Contribution.ofBody 0 body).handlers := by
  rw [Contribution.prelude_ofBody]
  refine EventTable.exists_object fun g hg x hx => ?_
  have hmem := (Statement.handlers_ofBody body).subset (mem_of_mem_grouped hg hx)
  exact Statement.isPlain_of_mem_bodyHandlers body _ hmem

/-- An element is made after its variables are set. Its object has one property for each store and
its events one handler for each that is asked for, and other variables stand in its children only. -/
theorem exists_assemble :
    ∃ properties, assemble scope key name classes attributes (Prelude.ofBody body) children =
        .madeWith (bodyVars body) (.object properties) ∧
      properties.filter Script.isStoreProperty = bodyStores body ∧
      (Script.handlersIn properties).Perm (bodyHandlers body) ∧
      (IsPlainKey key → varsOfProperties properties = varsOfItems children.toList ∧
        propertiesGap? properties = itemsGap? children.toList) := by
  obtain ⟨table, hobject, ⟨htable, hgap⟩, hhandlers⟩ := exists_events body
  have hlookup := lookup_plainProperties scope key name classes attributes body children
  have hfilter := filter_plainProperties scope key name classes attributes body children
  have hplain := @plainProperties_eq scope key name classes attributes body children
  have hall := (perm_grouped (Contribution.ofBody 0 body).handlers).trans
    (Statement.handlers_ofBody body)
  rw [assemble_eq, hobject]
  -- an element that nothing listens to has no table of events
  cases hempty : (Prelude.ofBody body).events.isEmpty with
  | true =>
    have hgroups : grouped (Contribution.ofBody 0 body).handlers = [] := by
      rw [Contribution.prelude_ofBody] at hempty
      exact isEmpty_iff.mp hempty
    rw [hgroups] at hall
    refine ⟨plainProperties scope key name classes attributes body children, ?_, hfilter, ?_, hplain⟩
    · rw [if_pos rfl, append_nil]
    · rw [Script.handlersIn, hlookup]
      exact hall
  | false =>
    rw [← hhandlers, flatMap_map] at hall
    have hevent : Script.isStoreProperty ("events", .object table) = false :=
      (by decide : "store_".toList.isPrefixOf "events".toList = false)
    rw [if_neg Bool.false_ne_true]
    refine ⟨_, rfl, ?_, ?_, fun hkey => ?_⟩
    · rw [filter_append, hfilter, filter_cons_of_neg (by rw [hevent]; exact Bool.false_ne_true)]
      exact append_nil _
    · rw [Script.handlersIn, lookup_append, hlookup]
      exact hall
    · rw [Script.varsOfProperties_append, Script.propertiesGap?_append, (hplain hkey).1,
        (hplain hkey).2, varsOfProperties, propertiesGap?, htable, hgap]
      exact ⟨append_nil _, Option.or_none⟩

end Element

/-! ## Variables of the code -/

theorem Script.Expr.vars_madeWith (vars : List Stmt) (object : Script.Expr) :
    (madeWith vars object).vars = varsOfBody vars ++ object.vars := by
  cases vars with
  | nil => rfl
  | cons s vars =>
    rw [madeWith, isEmpty_cons, if_neg Bool.false_ne_true, Expr.vars, Script.varsOfBody_append]
    simp only [varsOfBody, Stmt.vars, append_nil]

/-- A fragment sets the variables that its nodes set, and has the gaps that they have. -/
theorem Fragment.assemble_eq (scope : BlockScope) {key : Option Script.Expr}
    (hkey : IsPlainKey key) (body : List Statement) :
    (assemble (isSingle body) key (bodyNodes scope (isSingle body) key 0 body)).vars =
        varsOfItems (bodyNodes scope (isSingle body) key 0 body) ∧
      (assemble (isSingle body) key (bodyNodes scope (isSingle body) key 0 body)).gap? =
        itemsGap? (bodyNodes scope (isSingle body) key 0 body) := by
  have hlength := bodyNodes_length scope (isSingle body) key 0 body
  generalize bodyNodes scope (isSingle body) key 0 body = nodes at hlength
  unfold assemble
  split
  · next hsingle =>
    have hone : (renderable body).length = 1 := of_decide_eq_true hsingle
    obtain ⟨node, rfl⟩ := length_eq_one_iff.mp (hlength.trans hone)
    exact ⟨(append_nil _).symm, Option.or_none.symm⟩
  · obtain ⟨hvars, hgap⟩ := hkey.property
    rw [Script.Expr.vars] at hvars
    rw [Script.Expr.gap?] at hgap
    rw [Script.Expr.vars, Script.Expr.gap?, Script.varsOfProperties_append,
      Script.propertiesGap?_append, hvars, hgap]
    exact ⟨append_nil _, Option.or_none⟩

/-- The variables and the gaps in the object of an element are those of the nodes in its body. -/
theorem Statement.node_element (scope : BlockScope) {key : Option Script.Expr}
    (hkey : IsPlainKey key) (p : Position) (name : String) (classes : List ClassClause)
    (attributes : List (String × Expr)) (body : List Statement) :
    ∃ properties, (element p name classes attributes body).node scope key =
        .madeWith (bodyVars body) (.object properties) ∧
      varsOfProperties properties =
        varsOfItems (bodyNodes scope (Fragment.isSingle body) key 0 body) ∧
      propertiesGap? properties =
        itemsGap? (bodyNodes scope (Fragment.isSingle body) key 0 body) := by
  rw [node]
  obtain ⟨hvars, hgap⟩ := Fragment.assemble_eq scope hkey body
  obtain ⟨properties, heq, -, -, hplain⟩ := Element.exists_assemble scope key name classes
    attributes body _
  refine ⟨properties, heq, ?_⟩
  rw [(hplain hkey).1, (hplain hkey).2]
  split
  · next hempty =>
    rw [isEmpty_iff.mp hempty]
    exact ⟨rfl, rfl⟩
  · rw [← hvars, ← hgap]
    exact ⟨append_nil _, Option.or_none⟩

mutual

/-- The functions in the node of a statement set the variables of the elements in it, in the order of
the source. -/
theorem Statement.vars_node (scope : BlockScope) {key : Option Script.Expr} (hkey : IsPlainKey key)
    (s : Statement) :
    (s.node scope key).vars = s.elements.flatMap fun e => bodyVars e.body := by
  cases s with
  | element p name classes attributes body =>
    obtain ⟨properties, heq, hvars, -⟩ :=
      Statement.node_element scope hkey p name classes attributes body
    rw [heq, Script.Expr.vars_madeWith, Statement.varsOfBody_bodyVars, Script.Expr.vars, hvars,
      varsOfItems_bodyNodes scope _ hkey 0 body, Statement.elements, flatMap_cons]
  | text p segments => exact (isPlain_concatenation (isPlain_lowerSegments segments)).1
  | output p value => exact value.vars_lower
  | choice p branches otherwise =>
    cases otherwise with
    | none =>
      rw [Statement.elements, Statement.node, vars_choiceNode scope hkey 0 _ branches, append_nil]
      exact append_nil _
    | some body =>
      have hlast := hkey.branchKey branches.length
      rw [Statement.elements, Statement.node, vars_choiceNode scope hkey 0 _ branches,
        (Fragment.assemble_eq scope hlast body).1, varsOfItems_bodyNodes scope _ hlast 0 body,
        flatMap_append]
  | loop p name items body =>
    have hitem := hkey.itemKey name
    rw [Statement.elements, Statement.node, Script.Expr.vars, Script.Expr.vars, items.vars_lower, varsOfItems,
      Script.Expr.vars, varsOfBody, Stmt.vars, (Fragment.assemble_eq scope hitem body).1,
      varsOfItems_bodyNodes scope _ hitem 0 body]
    simp only [varsOfBody, varsOfItems, append_nil, nil_append]
  | store p name value | binding p name value | link p links => rfl

theorem varsOfItems_bodyNodes (scope : BlockScope) (single : Bool) {key : Option Script.Expr}
    (hkey : IsPlainKey key) (i : Nat) (body : List Statement) :
    varsOfItems (bodyNodes scope single key i body) =
      (elementsOf body).flatMap fun e => bodyVars e.body := by
  match body with
  | [] => rfl
  | s :: rest =>
    rw [elementsOf, flatMap_append, bodyNodes]
    split
    · next hcontrol =>
      rw [Statement.elements_of_isControl hcontrol]
      exact varsOfItems_bodyNodes scope single hkey i rest
    · rw [varsOfItems, s.vars_node scope (hkey.childKey single i),
        varsOfItems_bodyNodes scope single hkey (i + 1) rest]

theorem vars_choiceNode (scope : BlockScope) {key : Option Script.Expr} (hkey : IsPlainKey key)
    (i : Nat) (last : Script.Expr) (branches : List (Expr × List Statement)) :
    (choiceNode scope key i last branches).vars =
      ((Statement.elementsOfBranches branches).flatMap fun e => bodyVars e.body) ++
        last.vars := by
  match branches with
  | [] => rfl
  | (condition, body) :: rest =>
    have hbranch := hkey.branchKey i
    rw [choiceNode, Script.Expr.vars, condition.vars_lower, (Fragment.assemble_eq scope hbranch body).1,
      varsOfItems_bodyNodes scope _ hbranch 0 body, vars_choiceNode scope hkey (i + 1) last rest,
      Statement.elementsOfBranches, flatMap_append, nil_append, append_assoc]

end

/-! ## Where bindings stand -/

namespace Statement

variable {α : Type} {f : Statement → List α} {body : List Statement}

/-- What stands in a branch gives a node. -/
theorem flatMap_eq_nil_of_allPlaced (hf : ∀ s, s.isControl = false → f s = [])
    (h : allPlaced .branch body) : body.flatMap f = [] := by
  induction body with
  | nil => rfl
  | cons s rest ih =>
    obtain ⟨hs, hrest⟩ := Bool.and_eq_true_iff.mp h
    have hnone : f s = [] := by
      refine hf s ?_
      cases s with
      | store | binding | link => cases hs
      | element | text | output | choice | loop => rfl
    rw [flatMap_cons, hnone, ih hrest]
    rfl

mutual

/-- What stands in a statement stands there directly or in the body of an element in it. -/
theorem collect_perm (hf : ∀ s, s.isControl = false → f s = []) {place : Place} (s : Statement)
    (h : s.isPlaced place) :
    (s.collect f).Perm (f s ++ s.elements.flatMap fun e => e.body.flatMap f) := by
  cases s with
  | element p name classes attributes body =>
    rw [hf _ rfl, elements, flatMap_cons]
    exact collectOf_perm hf body h
  | choice p branches otherwise =>
    cases otherwise with
    | none =>
      have hsome := collectOfBranches_perm hf branches (Bool.and_eq_true_iff.mp h).1
      rw [hf _ rfl, elements, append_nil, collect, append_nil]
      exact hsome
    | some body =>
      obtain ⟨hbranches, hlast⟩ := Bool.and_eq_true_iff.mp h
      have hsome := collectOfBranches_perm hf branches hbranches
      have hbody := collectOf_perm hf body hlast
      rw [flatMap_eq_nil_of_allPlaced hf hlast] at hbody
      rw [hf _ rfl, elements, flatMap_append]
      exact hsome.append hbody
  | loop p name items body =>
    have hbody := collectOf_perm hf body h
    rw [flatMap_eq_nil_of_allPlaced hf h] at hbody
    rw [hf _ rfl]
    exact hbody
  | text | output | store | binding | link => exact .of_eq (append_nil _).symm

theorem collectOf_perm (hf : ∀ s, s.isControl = false → f s = []) {place : Place}
    (body : List Statement) (h : allPlaced place body) :
    (collectOf f body).Perm
      (body.flatMap f ++ (elementsOf body).flatMap fun e => e.body.flatMap f) := by
  match body with
  | [] => rfl
  | s :: rest =>
    obtain ⟨hs, hrest⟩ := Bool.and_eq_true_iff.mp h
    have hboth := (collect_perm hf s hs).append (collectOf_perm hf rest hrest)
    rw [collectOf, flatMap_cons, elementsOf, flatMap_append]
    refine hboth.trans ?_
    rw [append_assoc, append_assoc]
    refine List.Perm.append_left _ ?_
    rw [← append_assoc, ← append_assoc]
    exact perm_append_comm.append_right _

theorem collectOfBranches_perm (hf : ∀ s, s.isControl = false → f s = [])
    (branches : List (Expr × List Statement)) (h : branchesPlaced branches) :
    (collectOfBranches f branches).Perm
      ((elementsOfBranches branches).flatMap fun e => e.body.flatMap f) := by
  match branches with
  | [] => rfl
  | (condition, body) :: rest =>
    obtain ⟨hbody, hrest⟩ := Bool.and_eq_true_iff.mp h
    have hfirst := collectOf_perm hf body hbody
    rw [flatMap_eq_nil_of_allPlaced hf hbody] at hfirst
    rw [collectOfBranches, elementsOfBranches, flatMap_append]
    exact hfirst.append (collectOfBranches_perm hf rest hrest)

end

theorem own_eq_nil (s : Statement) (h : s.isControl = false) : s.bindings = [] ∧ s.links = [] := by
  cases s with
  | store | binding | link => cases h
  | element | text | output | choice | loop => exact ⟨rfl, rfl⟩

/-- No link stands directly in a block. -/
theorem bodyLinks_eq_nil (h : allPlaced .block body) : bodyLinks body = [] := by
  induction body with
  | nil => rfl
  | cons s rest ih =>
    obtain ⟨hs, hrest⟩ := Bool.and_eq_true_iff.mp h
    rw [bodyLinks, flatMap_cons, ← bodyLinks, ih hrest]
    cases s with
    | link => cases hs
    | element | text | output | choice | loop | store | binding => rfl

end Statement

namespace MarkupBlock

variable {b : MarkupBlock}

theorem bindings_eq_bodyVars (h : Statement.allPlaced .block b.body) :
    b.bindings = bodyVars b.body := by
  rw [bindings_eq h, ← Statement.statements_ofBody, Contribution.prelude_ofBody]
  rfl

theorem isPlainKey_root (scope : BlockScope) (b : MarkupBlock) :
    IsPlainKey (some (b.rootKey scope)) := by
  rintro k ⟨⟩
  exact ⟨rfl, rfl⟩

theorem vars_lower (h : Statement.allPlaced .block b.body) (scope : BlockScope) :
    (b.lower scope).vars = bodyVars b.body ++
      (elementsOf b.body).flatMap fun e => bodyVars e.body := by
  have hkey := b.isPlainKey_root scope
  rw [lower, Stmt.vars, Script.varsOfBody_append, bindings_eq_bodyVars h,
    Statement.varsOfBody_bodyVars, varsOfBody, Stmt.vars, fragment,
    (Fragment.assemble_eq scope hkey b.body).1, varsOfItems_bodyNodes scope _ hkey 0 b.body]
  simp only [varsOfBody, append_nil]

end MarkupBlock

/-- The code of a template has one function for each markup block, in order. That of a block sets the
variables of the bindings in its body, and each element at any depth is made after those of its own
body are set. No other variables are set, and every binding and every link stands in one of these
bodies. An element has one property for each of its stores, and in its events stand the handlers of
its stores and links. -/
theorem MarkupBlock.lower_binds_each_once {file source : String} {t : Template} {b : MarkupBlock}
    (h : Template.read file source = .ok t) (hb : .markup b ∈ t.blocks) (scope : BlockScope) :
    t.lower scope = t.blocks.flatMap (Block.functions scope) ∧ b.lower scope ∈ t.lower scope ∧
    (∃ root, b.lower scope = .function b.name (b.params.map lowerParam)
      (bodyVars b.body ++ [.ret root])) ∧
    (∀ e ∈ elementsOf b.body, ∃ key properties,
      e.node scope key ∈ (b.lower scope).parts ∧
      e.node scope key = .madeWith (bodyVars e.body) (.object properties) ∧
      properties.filter Script.isStoreProperty = bodyStores e.body ∧
      (Script.handlersIn properties).Perm (bodyHandlers e.body)) ∧
    (b.lower scope).vars = bodyVars b.body ++
      ((elementsOf b.body).flatMap fun e => bodyVars e.body) ∧
    (Statement.collectOf Statement.bindings b.body).Perm (bodyBindings b.body ++
      (elementsOf b.body).flatMap fun e => bodyBindings e.body) ∧
    (Statement.collectOf Statement.links b.body).Perm
      ((elementsOf b.body).flatMap fun e => bodyLinks e.body) := by
  have hplaced := Template.read_isPlaced h hb
  refine ⟨t.lower_eq_flatMap scope, lower_mem hb scope,
    ⟨_, by rw [lower, bindings_eq_bodyVars hplaced]⟩, fun e he => ?_,
    vars_lower hplaced scope,
    Statement.collectOf_perm (fun s hs => (s.own_eq_nil hs).1) _ hplaced, ?_⟩
  · obtain ⟨key, hmem⟩ := node_mem_parts scope b he
    obtain ⟨properties, heq, hstores, hhandlers, -⟩ := Element.exists_assemble scope key e.name
      e.classes e.attributes e.body _
    exact ⟨key, properties, hmem, heq, hstores, hhandlers⟩
  · have hlinks := Statement.collectOf_perm (fun s hs => (s.own_eq_nil hs).2) _ hplaced
    rwa [← bodyLinks, Statement.bodyLinks_eq_nil hplaced] at hlinks

def benchSource : String :=
  "bench(xs):\n  let n = 1\n  div\n    store s = Counter(n)\n    link \x7ba, b\x7d = bus\n" ++
  "    for x of xs:\n      p\n        let m = x\n        link a = bus.put\n        \"no \x7bm\x7d\"\n"

theorem bench_lower_binds_each_once :
    ∃ t b, Template.read "bench" benchSource = .ok t ∧ .markup b ∈ t.blocks ∧
      ∀ scope, (b.lower scope).vars.length = 4 ∧
        ∀ e ∈ elementsOf b.body, ∃ key properties,
          e.node scope key ∈ (b.lower scope).parts ∧
          e.node scope key = .madeWith (bodyVars e.body) (.object properties) ∧
          (Script.handlersIn properties).length = if e.name = "div" then 3 else 1 := by
  have hcheck : ((onlyBlock (Template.read "bench" benchSource)).any fun (b : MarkupBlock) =>
      decide ((bodyVars b.body ++
        (elementsOf b.body).flatMap fun e => bodyVars e.body).length = 4) &&
      decide (∀ e ∈ elementsOf b.body,
        (bodyHandlers e.body).length = if e.name = "div" then 3 else 1)) = true := by
    decide +kernel
  obtain ⟨t, b, hread, hb, hcounts⟩ := exists_of_onlyBlock hcheck
  simp only [Bool.and_eq_true, decide_eq_true_eq] at hcounts
  refine ⟨t, b, hread, hb, fun scope => ?_⟩
  obtain ⟨-, -, -, helements, hvars, -⟩ := MarkupBlock.lower_binds_each_once hread hb scope
  refine ⟨hvars ▸ hcounts.1, fun e he => ?_⟩
  obtain ⟨key, properties, hmem, heq, -, hhandlers⟩ := helements e he
  exact ⟨key, properties, hmem, heq, hhandlers.length_eq.trans (hcounts.2 e he)⟩

end Stencil
