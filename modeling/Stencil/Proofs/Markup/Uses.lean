import Stencil.Proofs.Markup.Occurrences

/-!
# The names in lowered blocks

The code of a block has exactly the names that are listed for the template, in that order and with
those functions around them.
-/
namespace Stencil

open Script (Chain Declaration Use resolve usesOfAll usesOfBody usesOfProperties)
open List

namespace Script

variable (chain : Chain)

theorem usesOfAll_eq_flatMap (xs : List Expr) :
    usesOfAll chain xs = xs.flatMap (·.uses chain) := by
  induction xs with
  | nil => rfl
  | cons x xs ih => rw [usesOfAll, ih, flatMap_cons]

theorem usesOfProperties_eq_flatMap (properties : List (String × Expr)) :
    usesOfProperties chain properties = properties.flatMap (·.2.uses chain) := by
  induction properties with
  | nil => rfl
  | cons p properties ih => rw [usesOfProperties, ih, flatMap_cons]

theorem usesOfProperties_append (xs ys : List (String × Expr)) :
    usesOfProperties chain (xs ++ ys) = usesOfProperties chain xs ++ usesOfProperties chain ys := by
  simp only [usesOfProperties_eq_flatMap, flatMap_append]

theorem usesOfBody_vars (vars : List (String × Expr)) (x : Expr) :
    usesOfBody chain (vars.map (fun v => .var v.1 v.2) ++ [.ret x]) =
      usesOfProperties chain vars ++ x.uses chain := by
  induction vars with
  | nil => rw [map_nil, nil_append, usesOfBody, usesOfBody, append_nil]; rfl
  | cons v vars ih =>
    rw [map_cons, cons_append, usesOfBody, ih, usesOfProperties, append_assoc]
    rfl

theorem Expr.uses_concat (first : Expr) (rest : List Expr) :
    (concat first rest).uses chain = first.uses chain ++ usesOfAll chain rest := by
  induction rest generalizing first with
  | nil => exact (append_nil _).symm
  | cons x rest ih =>
    rw [concat, foldl_cons, ← concat, ih, Expr.uses, usesOfAll, append_assoc]

end Script

theorem uses_concatenation (chain : Chain) (parts : List Script.Expr) :
    (concatenation parts).uses chain = usesOfAll chain parts := by
  cases parts with
  | nil => rfl
  | cons first rest => exact Script.Expr.uses_concat chain first rest

mutual

theorem Expr.uses_lower (s : Site) (x : Expr) :
    x.lower.uses s.chain = (x.occurrences s).map Occurrence.use := by
  cases x with
  | name p n => rfl
  | string p v => rfl
  | number p d => rfl
  | new p x => exact x.uses_lower s
  | not p x => exact x.uses_lower s
  | «attribute» p x n => exact x.uses_lower s
  | list p xs => exact usesOfAll_lowerAll s xs
  | dictionary p items => exact usesOfProperties_lowerItems s items
  | format p segments =>
    rw [Expr.lower, uses_concatenation, Expr.occurrences]
    exact usesOfAll_lowerSegments s segments
  | call p f xs =>
    rw [Expr.lower, Script.Expr.uses, f.uses_lower s, usesOfAll_lowerAll s xs, ← map_append]
    rfl
  | and p x y | or p x y | item p x y | arithmetic p op x y | relation p op x y =>
    rw [Expr.lower, Script.Expr.uses, x.uses_lower s, y.uses_lower s, ← map_append]
    rfl

theorem usesOfAll_lowerAll (s : Site) (xs : List Expr) :
    usesOfAll s.chain (lowerAll xs) = (occurrencesOfAll s xs).map Occurrence.use := by
  match xs with
  | [] => rfl
  | x :: xs =>
    rw [lowerAll, usesOfAll, x.uses_lower s, usesOfAll_lowerAll s xs, ← map_append]
    rfl

theorem usesOfProperties_lowerItems (s : Site) (items : List (String × Expr)) :
    usesOfProperties s.chain (lowerItems items) =
      (occurrencesOfItems s items).map Occurrence.use := by
  match items with
  | [] => rfl
  | (key, x) :: items =>
    rw [lowerItems, usesOfProperties, x.uses_lower s, usesOfProperties_lowerItems s items,
      ← map_append]
    rfl

theorem usesOfAll_lowerSegments (s : Site) (segments : List Segment) :
    usesOfAll s.chain (lowerSegments segments) =
      (occurrencesOfSegments s segments).map Occurrence.use := by
  match segments with
  | [] => rfl
  | .text t :: segments => exact usesOfAll_lowerSegments s segments
  | .expr x :: segments =>
    have hcall : (Script.Expr.call (.name "String") [x.lower]).uses s.chain =
        (s.global "String" :: x.occurrences s).map Occurrence.use := by
      rw [Script.Expr.uses, usesOfAll, usesOfAll, append_nil, x.uses_lower s]
      rfl
    rw [lowerSegments, usesOfAll, hcall, usesOfAll_lowerSegments s segments, ← map_append]
    rfl

end

/-! ## Bindings -/

variable (s : Site)

theorem uses_streamHandler (stream : Script.Expr) (filter value : Option Expr) :
    (streamHandler stream filter value).uses s.chain = stream.uses s.chain ++
      (callbackOccurrences s value ++ callbackOccurrences s filter).map Occurrence.use := by
  have hcallback (x : Expr) :
      (Script.Expr.function "" [("ev", none)] [.ret x.lower]).uses s.chain =
      (callbackOccurrences s (some x)).map Occurrence.use := by
    rw [callbackOccurrences, Option.toList_some, flatMap_singleton, ← x.uses_lower]
    exact append_nil _
  have hstep (method : String) (x : Expr) (stream : Script.Expr) :
      (Script.Expr.call (.attribute stream method)
          [.function "" [("ev", none)] [.ret x.lower]]).uses s.chain =
        stream.uses s.chain ++ (callbackOccurrences s (some x)).map Occurrence.use := by
    rw [Script.Expr.uses, Script.Expr.uses, usesOfAll, usesOfAll, append_nil, hcallback]
  rw [map_append, ← append_assoc]
  cases value with
  | none =>
    cases filter with
    | none => simp [streamHandler, Script.Expr.uses, callbackOccurrences]
    | some f => exact (hstep "filter" f stream).trans (congrArg (· ++ _) (append_nil _).symm)
  | some v =>
    cases filter with
    | none => exact (hstep "map" v stream).trans (append_nil _).symm
    | some f => exact (hstep "filter" f _).trans (congrArg (· ++ _) (hstep "map" v stream))

variable (n : Nat)

theorem Link.vars_ofLink (link : Link) :
    (Contribution.ofLink n link).vars.map (·.1) = link.variableNames n := by
  cases link <;> rfl

theorem vars_ofLinks (links : List Link) :
    (Contribution.ofLinks n links).vars.map (·.1) = linkVariables n links := by
  induction links generalizing n with
  | nil => rfl
  | cons link links ih =>
    rw [Contribution.ofLinks, Contribution.vars_append, map_append, ih, link.vars_ofLink,
      linkVariables, ← link.vars_ofLink, length_map]

variable (x : Statement)

theorem Statement.vars_ofStatement :
    (Contribution.ofStatement n x).vars.map (·.1) = x.variableNames n := by
  cases x with
  | link _ links => exact vars_ofLinks n links
  | _ => rfl

variable (body : List Statement)

theorem Statement.vars_ofBody :
    (Contribution.ofBody n body).vars.map (·.1) = bodyVariables n body := by
  induction body generalizing n with
  | nil => rfl
  | cons x rest ih =>
    rw [Contribution.ofBody, Contribution.vars_append, map_append, ih, x.vars_ofStatement,
      bodyVariables, ← x.vars_ofStatement, length_map]

/-- What bindings contribute has the names that are listed for them. -/
structure Contribution.Has (chain : Chain) (c : Contribution) (o : BindingOccurrences) : Prop where
  values : usesOfProperties chain c.vars = o.values.map Occurrence.use
  stores : usesOfProperties chain c.stores = o.stores.map Occurrence.use
  handlers : (c.handlers.map fun h => (h.1, h.2.uses chain)) =
    o.handlers.map fun h => (h.1, h.2.map Occurrence.use)

namespace Contribution.Has

variable {chain : Chain}

theorem empty : Has chain {} {} := ⟨rfl, rfl, rfl⟩

theorem append {c d : Contribution} {o p : BindingOccurrences} (hc : Has chain c o)
    (hd : Has chain d p) : Has chain (c ++ d) (o ++ p) where
  values := by
    rw [vars_append, Script.usesOfProperties_append, hc.values, hd.values, ← map_append]
    rfl
  stores := by
    rw [stores_append, Script.usesOfProperties_append, hc.stores, hd.stores, ← map_append]
    rfl
  handlers := by
    rw [handlers_append, map_append, hc.handlers, hd.handlers, ← map_append]
    rfl

theorem ofLink (link : Link) :
    Has s.chain (Contribution.ofLink n link) (.ofLink s n link) := by
  cases link with
  | single event filter target =>
    refine ⟨rfl, rfl, ?_⟩
    rw [Contribution.ofLink, BindingOccurrences.ofLink]
    simp only [map_cons, map_nil]
    rw [uses_streamHandler, target.target.uses_lower, ← List.map_append, List.append_assoc]
  | multi entries target =>
    refine ⟨?_, rfl, ?_⟩
    · rw [Contribution.ofLink, usesOfProperties, usesOfProperties, append_nil,
        target.target.uses_lower]
      rfl
    · rw [Contribution.ofLink, BindingOccurrences.ofLink]
      simp only [map_map]
      refine map_congr_left fun e _ => ?_
      simp only [Function.comp_apply]
      rw [uses_streamHandler]
      rfl

theorem ofLinks (links : List Link) :
    Has s.chain (Contribution.ofLinks n links) (.ofLinks s n links) := by
  induction links generalizing n with
  | nil => exact empty
  | cons link links ih =>
    rw [Contribution.ofLinks, BindingOccurrences.ofLinks, ← link.vars_ofLink, length_map]
    exact (ofLink s n link).append (ih _)

theorem ofStatement :
    Has s.chain (Contribution.ofStatement n x) (.ofStatement s n x) := by
  cases x with
  | binding _ name value =>
    refine ⟨?_, rfl, rfl⟩
    rw [Contribution.ofStatement, usesOfProperties, usesOfProperties, append_nil, value.uses_lower]
    rfl
  | store _ name value =>
    refine ⟨?_, rfl, rfl⟩
    rw [Contribution.ofStatement, Contribution.ofStore, usesOfProperties, usesOfProperties,
      append_nil, Script.Expr.uses, value.uses_lower]
    rfl
  | link _ links => exact ofLinks s n links
  | _ => exact empty

end Contribution.Has

@[simp] theorem Site.after_chain :
    (s.after n x).chain = s.chain := by
  cases x <;> rfl

theorem Contribution.Has.ofBody :
    Has s.chain (Contribution.ofBody n body) (.ofBody s n body) := by
  induction body generalizing s n with
  | nil => exact empty
  | cons x rest ih =>
    have hrest := ih (s.after n x) (n + (Contribution.ofStatement n x).vars.length)
    rw [Site.after_chain] at hrest
    rw [Contribution.ofBody, BindingOccurrences.ofBody, ← x.vars_ofStatement, length_map]
    exact (ofStatement s n x).append hrest

theorem EventTable.uses_object (chain : Chain) (table : EventTable) :
    table.object.uses chain = table.flatMap fun g => usesOfAll chain g.2 := by
  rw [EventTable.object, Script.Expr.uses]
  induction table with
  | nil => rfl
  | cons group table ih =>
    obtain ⟨event, handlers⟩ := group
    rw [map_cons, flatMap_cons, ← ih]
    match handlers with
    | [handler] => rw [usesOfProperties, usesOfAll, usesOfAll, append_nil]
    | [] | _ :: _ :: _ => rfl

variable {c : Contribution} {o : BindingOccurrences} {key : Script.Expr}
  {loops : List (String × Declaration)}

theorem Contribution.Has.events {chain : Chain} (h : c.Has chain o) :
    (EventTable.object (grouped c.handlers)).uses chain = o.events.map Occurrence.use := by
  have hgroups : ((grouped c.handlers).map fun g => (g.1, g.2.map (·.uses chain))) =
      (grouped o.handlers).map fun g => (g.1, g.2.map (·.map Occurrence.use)) := by
    rw [← EventTable.grouped_map, h.handlers, EventTable.grouped_map]
  calc (EventTable.object (grouped c.handlers)).uses chain
      = ((grouped c.handlers).map fun g => (g.1, g.2.map (·.uses chain))).flatMap
          (·.2.flatten) := by
        rw [EventTable.uses_object, flatMap_map]
        simp only [Script.usesOfAll_eq_flatMap, flatMap_def]
    _ = o.events.map Occurrence.use := by
        rw [hgroups, flatMap_map, BindingOccurrences.events, map_flatMap]
        simp only [map_flatten]

/-! ## Nodes -/

theorem uses_conditionalClass (classes : List ClassClause) :
    usesOfAll s.chain (classes.filterMap Element.conditionalClass) =
      ((classes.filterMap (·.condition)).flatMap (·.occurrences s)).map Occurrence.use := by
  induction classes with
  | nil => rfl
  | cons c classes ih =>
    obtain ⟨name, condition⟩ := c
    cases condition with
    | none => exact ih
    | some x =>
      have hc : (Script.Expr.ternary x.lower (.string name) (.string "")).uses s.chain =
          (x.occurrences s).map Occurrence.use := by
        simp only [Script.Expr.uses, append_nil, x.uses_lower]
      calc usesOfAll s.chain ((⟨name, some x⟩ :: classes).filterMap Element.conditionalClass)
          = (Script.Expr.ternary x.lower (.string name) (.string "")).uses s.chain ++
              usesOfAll s.chain (classes.filterMap Element.conditionalClass) := rfl
        _ = _ := by rw [hc, ih, ← map_append]; rfl

theorem uses_classParts (scope : BlockScope) (name : String)
    (classes : List ClassClause) (attributes : List (String × Expr)) :
    usesOfAll s.chain (Element.classParts scope name classes attributes) =
      ((classes.filterMap (·.condition)).flatMap (·.occurrences s) ++
        (attributes.filter (·.1 = "class")).flatMap (·.2.occurrences s)).map Occurrence.use := by
  have hvalues : usesOfAll s.chain ((attributes.filter (·.1 = "class")).map (·.2.lower)) =
      ((attributes.filter (·.1 = "class")).flatMap (·.2.occurrences s)).map Occurrence.use := by
    simp only [Script.usesOfAll_eq_flatMap, flatMap_map, map_flatMap, Expr.uses_lower]
  have hfixed (texts : List String) : usesOfAll s.chain
      (if texts.isEmpty then [] else [.string (" ".intercalate texts)]) = [] := by
    cases texts <;> rfl
  rw [map_append, ← hvalues, ← uses_conditionalClass, Element.classParts,
    Script.usesOfAll_eq_flatMap, flatMap_append, flatMap_append,
    ← Script.usesOfAll_eq_flatMap, ← Script.usesOfAll_eq_flatMap, ← Script.usesOfAll_eq_flatMap,
    hfixed, nil_append]

theorem uses_spaced (chain : Chain) (first : Script.Expr) (rest : List Script.Expr) :
    (Element.spaced first rest).uses chain = first.uses chain ++ usesOfAll chain rest := by
  induction rest generalizing first with
  | nil => exact (append_nil _).symm
  | cons x rest ih =>
    rw [Element.spaced, foldl_cons, ← Element.spaced, ih, Script.Expr.uses_concat, usesOfAll,
      usesOfAll, usesOfAll, usesOfAll, append_nil, append_assoc]
    rfl

theorem uses_attributeObject (scope : BlockScope) (name : String)
    (classes : List ClassClause) (attributes : List (String × Expr)) :
    usesOfProperties s.chain (Element.attributeObject scope name classes attributes) =
      (Element.occurrences s classes attributes).map Occurrence.use := by
  have hothers : usesOfProperties s.chain
      ((attributes.filter (·.1 ≠ "class")).map fun a => (a.1, a.2.lower)) =
      ((attributes.filter (·.1 ≠ "class")).flatMap (·.2.occurrences s)).map Occurrence.use := by
    simp only [Script.usesOfProperties_eq_flatMap, flatMap_map, map_flatMap, Expr.uses_lower]
  have hparts := uses_classParts s scope name classes attributes
  rw [Element.occurrences, append_assoc, map_append, ← hothers, ← hparts, Element.attributeObject]
  cases Element.classParts scope name classes attributes with
  | nil => exact (append_nil _).symm
  | cons first rest =>
    dsimp only
    rw [Script.usesOfProperties_append, usesOfProperties, usesOfProperties, append_nil, uses_spaced]
    rfl

/-- The names in a key are those of the loops, wherever the key is copied to. -/
def HasLoops (key : Script.Expr) (loops : List (String × Declaration)) : Prop :=
  ∀ chain, key.uses chain = loops.map fun l => ⟨l.1, resolve chain l.1⟩

namespace HasLoops

variable {key : Script.Expr} {loops : List (String × Declaration)}

theorem uses_eq (h : HasLoops key loops) (s : Site) :
    key.uses s.chain = (s.keyed loops).map Occurrence.use := by
  rw [h, Site.keyed, map_map]
  rfl

theorem branch (h : HasLoops key loops) (i : Nat) :
    HasLoops (Script.Expr.concat key [.string s!":{i}"]) loops := by
  intro chain
  rw [Script.Expr.uses_concat, h]
  exact append_nil _

theorem item (h : HasLoops key loops) (name : String) (d : Declaration) :
    HasLoops (Script.Expr.concat key [.string ":", .name name]) (loops ++ [(name, d)]) := by
  intro chain
  rw [Script.Expr.uses_concat, h, map_append]
  rfl

end HasLoops

theorem bodyNodes_length (scope : BlockScope) (single : Bool) (key : Option Script.Expr) (i : Nat)
    (body : List Statement) :
    (bodyNodes scope single key i body).length = (Fragment.renderable body).length := by
  induction body generalizing i with
  | nil => rfl
  | cons x rest ih =>
    rw [bodyNodes, Fragment.renderable]
    cases hx : x.isControl with
    | true => rw [if_pos rfl, ih, filter_cons_of_neg (by simp [hx])]; rfl
    | false =>
      rw [if_neg Bool.false_ne_true, length_cons, ih, filter_cons_of_pos (by simp [hx])]
      rfl

/-- A body with one node has no key of its own. -/
theorem uses_fragment (hkey : HasLoops key loops) (s : Site) {body : List Statement}
    {nodes : List Script.Expr} {occurrences : List Occurrence}
    (hlength : nodes.length = (Fragment.renderable body).length)
    (hnodes : usesOfAll s.chain nodes = occurrences.map Occurrence.use) :
    (Fragment.assemble (Fragment.isSingle body) (some key) nodes).uses s.chain =
      (fragmentOccurrences (s.keyed loops) body occurrences).map Occurrence.use := by
  rw [Fragment.assemble, fragmentOccurrences, ← Fragment.isSingle_eq]
  cases hsingle : Fragment.isSingle body with
  | true =>
    have hone : nodes.length = 1 := hlength.trans (of_decide_eq_true hsingle)
    obtain ⟨node, rfl⟩ := length_eq_one_iff.mp hone
    rw [if_pos rfl, if_pos rfl, ← hnodes, usesOfAll, usesOfAll, append_nil, headD_cons]
  | false =>
    rw [if_neg Bool.false_ne_true, if_neg Bool.false_ne_true, map_append, ← hnodes, ← hkey.uses_eq]
    simp [Element.keyProperty, Script.Expr.uses, usesOfProperties]

theorem uses_element (hkey : HasLoops key loops) (s : Site) (scope : BlockScope) (name : String)
    (classes : List ClassClause) (attributes : List (String × Expr)) {children : Option Script.Expr}
    {inside : List Occurrence} (hc : c.Has s.chain o)
    (hchildren : usesOfAll s.chain children.toList = inside.map Occurrence.use) :
    (Script.Expr.object
      (Element.keyProperty (some key) ++ [("tag", .string name)] ++ c.stores ++
        (let attributes := Element.attributeObject scope name classes attributes
          if attributes.isEmpty then [] else [("attrs", .object attributes)]) ++
        (children.toList.map fun x => ("children", x)) ++
        (if (grouped c.handlers).isEmpty then []
          else [("events", EventTable.object (grouped c.handlers))]))).uses s.chain =
      (s.keyed loops ++ o.stores ++ Element.occurrences s classes attributes ++ inside ++
        o.events).map Occurrence.use := by
  have hhead : usesOfProperties s.chain
      (Element.keyProperty (some key) ++ [("tag", .string name)]) =
      (s.keyed loops).map Occurrence.use := by
    simp [Element.keyProperty, usesOfProperties, Script.Expr.uses, hkey.uses_eq]
  have hattributes : usesOfProperties s.chain
      (let attributes := Element.attributeObject scope name classes attributes
        if attributes.isEmpty then [] else [("attrs", .object attributes)]) =
      (Element.occurrences s classes attributes).map Occurrence.use := by
    rw [← uses_attributeObject s scope name]
    cases Element.attributeObject scope name classes attributes with
    | nil => rfl
    | cons a rest => simp [usesOfProperties, Script.Expr.uses]
  have hinside : usesOfProperties s.chain (children.toList.map fun x => ("children", x)) =
      inside.map Occurrence.use := by
    rw [← hchildren, Script.usesOfProperties_eq_flatMap, flatMap_map, Script.usesOfAll_eq_flatMap]
  have hevents : usesOfProperties s.chain (if (grouped c.handlers).isEmpty then []
      else [("events", EventTable.object (grouped c.handlers))]) = o.events.map Occurrence.use := by
    rw [← hc.events]
    cases grouped c.handlers with
    | nil => rfl
    | cons group rest => simp [usesOfProperties]
  rw [Script.Expr.uses, Script.usesOfProperties_append, Script.usesOfProperties_append,
    Script.usesOfProperties_append, Script.usesOfProperties_append, hhead, hc.stores, hattributes,
    hinside, hevents]
  simp only [map_append]

/-- With bindings an element is a function of the node that it replaces. -/
theorem uses_bindings (object : Script.Expr) {inside : List Use}
    (hobject : object.uses (s.element body).chain = inside) :
    (if (Prelude.ofBody body).statements.isEmpty then object
      else .function "" [("old_node", none)]
        ((Prelude.ofBody body).statements ++ [.ret object])).uses s.chain =
      (BindingOccurrences.ofBody (s.element body) 0 body).values.map Occurrence.use ++ inside := by
  have hvalues := (Contribution.Has.ofBody (s.element body) 0 body).values
  have hnames := Statement.vars_ofBody 0 body
  rw [Contribution.prelude_ofBody, Contribution.toPrelude, ← hvalues]
  dsimp only
  cases hvars : (Contribution.ofBody 0 body).vars with
  | nil =>
    have hsite : s.element body = s := by
      rw [Site.element, ← hnames, hvars]
      rfl
    rw [hsite] at hobject
    exact hobject
  | cons v vars =>
    have hsite : (s.element body).chain = ("old_node" :: (v :: vars).map (·.1)) :: s.chain := by
      rw [Site.element, ← hnames, hvars]
      rfl
    rw [if_neg (by simp), Script.Expr.uses, ← hobject, hsite, Script.declared_vars,
      Script.usesOfBody_vars]
    rfl

mutual

theorem uses_node (scope : BlockScope) (s : Site) {key : Script.Expr}
    {loops : List (String × Declaration)} (hkey : HasLoops key loops) (x : Statement) :
    (x.node scope (some key)).uses s.chain = (x.occurrences s loops).map Occurrence.use := by
  cases x with
  | element p name classes attributes body =>
    have hnodes := uses_bodyNodes scope (s.element body) hkey (Fragment.isSingle body) 0 0 body
    have hlength := bodyNodes_length scope (Fragment.isSingle body) (some key) 0 body
    have hfragment := uses_fragment hkey (s.element body) hlength hnodes
    have hchildren : usesOfAll (s.element body).chain
        (if (bodyNodes scope (Fragment.isSingle body) (some key) 0 body).isEmpty then none
          else some (Fragment.assemble (Fragment.isSingle body) (some key)
            (bodyNodes scope (Fragment.isSingle body) (some key) 0 body))).toList =
        (if (Fragment.renderable body).isEmpty then []
          else fragmentOccurrences ((s.element body).keyed loops) body
            (Statement.bodyOccurrences (s.element body) 0 loops body)).map Occurrence.use := by
      have hempty : (bodyNodes scope (Fragment.isSingle body) (some key) 0 body).isEmpty =
          (Fragment.renderable body).isEmpty := by
        rw [Bool.eq_iff_iff, isEmpty_iff_length_eq_zero, isEmpty_iff_length_eq_zero, hlength]
      rw [hempty]
      cases (Fragment.renderable body).isEmpty with
      | true => rfl
      | false =>
        rw [if_neg Bool.false_ne_true, if_neg Bool.false_ne_true, ← hfragment]
        exact append_nil _
    have hobject := uses_element hkey (s.element body) scope name classes attributes
      (Contribution.Has.ofBody (s.element body) 0 body) hchildren
    have hbound := uses_bindings s body _ hobject
    rw [Statement.node, Element.assemble, Statement.occurrences]
    rw [Contribution.prelude_ofBody] at hbound ⊢
    refine hbound.trans ?_
    simp only [map_append, append_assoc]
  | text p segments =>
    rw [Statement.node, uses_concatenation]
    exact usesOfAll_lowerSegments s segments
  | output p value => exact value.uses_lower s
  | choice p branches otherwise =>
    cases otherwise with
    | none =>
      rw [Statement.occurrences, map_append]
      exact uses_choiceNode scope s hkey 0 (.string "") branches
    | some body =>
      have hbody := uses_fragment (hkey.branch branches.length) s (bodyNodes_length ..)
        (uses_bodyNodes scope s (hkey.branch branches.length) (Fragment.isSingle body) 0 0 body)
      rw [Statement.occurrences, map_append, ← hbody]
      exact uses_choiceNode scope s hkey 0 _ branches
  | loop p name items body =>
    have hitem := hkey.item name ((s.function name).declaration 0)
    have hbody := uses_fragment hitem (s.function name) (bodyNodes_length ..)
      (uses_bodyNodes scope (s.function name) hitem (Fragment.isSingle body) 0 0 body)
    rw [Statement.occurrences, map_append, ← items.uses_lower, ← hbody]
    exact congrArg (_ ++ ·) ((append_nil _).trans (append_nil _))
  | store p name value => rfl
  | binding p name value => rfl
  | link p links => rfl

theorem uses_bodyNodes (scope : BlockScope) (s : Site) {key : Script.Expr}
    {loops : List (String × Declaration)} (hkey : HasLoops key loops) (single : Bool) (i n : Nat)
    (body : List Statement) :
    usesOfAll s.chain (bodyNodes scope single (some key) i body) =
      (Statement.bodyOccurrences s n loops body).map Occurrence.use := by
  match body with
  | [] => rfl
  | x :: rest =>
    have hrest (i : Nat) : usesOfAll s.chain (bodyNodes scope single (some key) i rest) =
        (Statement.bodyOccurrences (s.after n x) (n + (x.variableNames n).length) loops
          rest).map Occurrence.use := by
      rw [← s.after_chain n x]
      exact uses_bodyNodes scope (s.after n x) hkey single i _ rest
    rw [bodyNodes, Statement.bodyOccurrences, map_append]
    cases hx : x.isControl with
    | true =>
      have hnone : x.occurrences s loops = [] := by
        cases x <;> first | rfl | cases hx
      rw [if_pos rfl, hrest, hnone]
      rfl
    | false =>
      have hnode : (x.node scope (Fragment.childKey single (some key) i)).uses s.chain =
          (x.occurrences s loops).map Occurrence.use := by
        cases single with
        | true => exact uses_node scope s hkey x
        | false => exact uses_node scope s (hkey.branch i) x
      rw [if_neg Bool.false_ne_true, usesOfAll, hnode, hrest]

theorem uses_choiceNode (scope : BlockScope) (s : Site) {key : Script.Expr}
    {loops : List (String × Declaration)} (hkey : HasLoops key loops) (i : Nat)
    (last : Script.Expr) (branches : List (Expr × List Statement)) :
    (choiceNode scope (some key) i last branches).uses s.chain =
      (Statement.branchOccurrences s loops branches).map Occurrence.use ++ last.uses s.chain := by
  match branches with
  | [] => rfl
  | (condition, body) :: rest =>
    have hbody := uses_fragment (hkey.branch i) s (bodyNodes_length ..)
      (uses_bodyNodes scope s (hkey.branch i) (Fragment.isSingle body) 0 0 body)
    have hrest := uses_choiceNode scope s hkey (i + 1) last rest
    rw [Statement.branchOccurrences, map_append, map_append, append_assoc, ← hrest,
      ← hbody, ← condition.uses_lower]
    rfl

end

namespace MarkupBlock

theorem usesOfParams_lowerParam (chain : Chain) (params : List Param) :
    Script.usesOfParams chain (params.map lowerParam) = [] := by
  induction params with
  | nil => rfl
  | cons p params ih =>
    rw [map_cons, lowerParam]
    cases p.fallback with
    | none => exact ih
    | some literal =>
      dsimp only [Option.bind_some]
      cases Literal.value literal with
      | ok value => exact ih
      | error fault => exact ih

/-- The code of a block has the names that are listed for it. -/
theorem uses_eq {b : MarkupBlock} (hplaced : Statement.allPlaced .block b.body)
    (scope : BlockScope) : (b.lower scope).uses [] = b.occurrences.map Occurrence.use := by
  have hroot : HasLoops (b.rootKey scope) [] := fun _ => rfl
  have hvalues := (Contribution.Has.ofBody b.site 0 b.body).values
  have hnodes := uses_fragment hroot b.site (bodyNodes_length ..)
    (uses_bodyNodes scope b.site hroot (Fragment.isSingle b.body) 0 0 b.body)
  have hchain : [(b.params.map lowerParam).map (·.1) ++
      (Contribution.ofBody 0 b.body).vars.map (·.1)] = b.site.chain := by
    rw [Statement.vars_ofBody, map_map]
    rfl
  rw [lower, Script.Stmt.uses, bindings_eq hplaced, usesOfParams_lowerParam, Script.declared_vars,
    hchain, nil_append, Script.usesOfBody_vars, hvalues, occurrences, map_append]
  exact congrArg (_ ++ ·) hnodes

end MarkupBlock

end Stencil
