import Stencil.Proofs.Markup.Elements
import Stencil.Proofs.Markup.Values

/-!
# The class attribute of an element

The code of an element has one class value, which is put together from the fixed classes, the
conditional ones and the class attributes. Where strings are added by appending them, its words are
the words of these parts, in their order.
-/
namespace Stencil

open Script (Interpretation Env)
open Text (words isOneWord words_append_space words_of_isOneWord words_intercalate)
open List

/-! ## The class value in the code -/

namespace Script.Expr

/-- A property of an object that is written out. -/
def property? (name : String) : Expr → Option Expr
  | .object properties => properties.lookup name
  | _ => none

/-- The object that a node is, or that a function in its place returns. -/
def built : Expr → Expr
  | .function _ _ body => match body.getLast? with
    | some (.ret x) => x
    | _ => .missing
  | x => x

/-- The class value of a node. -/
def classValue? (node : Expr) : Option Expr :=
  (node.built.property? "attrs").bind (property? "class")

end Script.Expr

/-- Stores are kept under names of their own. -/
theorem Contribution.stores_ofBody {n : Nat} {body : List Statement} {store : String × Script.Expr}
    (h : store ∈ (Contribution.ofBody n body).stores) : ∃ name, store.1 = "store_" ++ name := by
  induction body generalizing n with
  | nil => cases h
  | cons s rest ih =>
    rw [Contribution.ofBody, Contribution.stores_append, mem_append] at h
    rcases h with hs | hrest
    · cases s with
      | store p name value =>
        obtain rfl := mem_singleton.mp hs
        exact ⟨name, rfl⟩
      | link p links =>
        rw [Contribution.ofStatement, Contribution.ofLinks_stores] at hs
        cases hs
      | element | text | output | binding | choice | loop => cases hs
    · exact ih hrest

namespace Element

variable {scope : BlockScope} {key : Option Script.Expr} {name : String}
  {classes : List ClassClause} {attributes : List (String × Expr)}

/-- The class value that the parts are put together to. -/
def classOf : List Script.Expr → Option Script.Expr
  | [] => none
  | first :: rest => some (spaced first rest)

theorem lookup_class_attributeObject :
    (attributeObject scope name classes attributes).lookup "class" =
      classOf (classParts scope name classes attributes) := by
  unfold attributeObject
  extract_lets others
  have hothers : others.lookup "class" = none := by
    rw [lookup_eq_none_iff]
    intro p hp
    obtain ⟨a, ha, rfl⟩ := mem_map.mp hp
    have hname : a.1 ≠ "class" := of_decide_eq_true (mem_filter.mp ha).2
    exact bne_iff_ne.mpr hname.symm
  cases classParts scope name classes attributes with
  | nil => exact hothers
  | cons first rest =>
    rw [lookup_append, hothers]
    rfl

/-- The object of an element, whether a function makes it or not. -/
theorem built_assemble (bindings : Prelude) (children : Option Script.Expr) :
    (assemble scope key name classes attributes bindings children).built =
      .object (keyProperty key ++ [("tag", .string name)] ++ bindings.stores ++
        (if (attributeObject scope name classes attributes).isEmpty then []
          else [("attrs", .object (attributeObject scope name classes attributes))]) ++
        (children.toList.map fun c => ("children", c)) ++
        (if bindings.events.isEmpty then [] else [("events", bindings.events.object)])) := by
  unfold assemble
  extract_lets attributeList object
  cases bindings.statements.isEmpty with
  | true => rfl
  | false =>
    rw [if_neg Bool.false_ne_true, Script.Expr.built, getLast?_concat]

theorem lookup_attrs_assemble {bindings : Prelude} {children : Option Script.Expr}
    (hstores : bindings.stores.lookup "attrs" = none) :
    ((assemble scope key name classes attributes bindings children).built.property? "attrs").bind
        (Script.Expr.property? "class") =
      classOf (classParts scope name classes attributes) := by
  rw [built_assemble, ← lookup_class_attributeObject]
  generalize attributeObject scope name classes attributes = attributeList
  have hkey : (keyProperty key).lookup "attrs" = none := by
    cases key <;> rfl
  change (lookup "attrs" _).bind _ = _
  simp only [lookup_append, hkey, hstores, Option.none_or]
  have htag : lookup "attrs" [("tag", Script.Expr.string name)] = none := rfl
  have hlast : ∀ table : EventTable, lookup "attrs"
      (if table.isEmpty = true then [] else [("events", table.object)]) = none := by
    intro table
    split <;> rfl
  have hchildren : (children.toList.map fun c => ("children", c)).lookup "attrs" = none := by
    cases children <;> rfl
  rw [htag, hchildren, hlast, Option.none_or, Option.or_none, Option.or_none]
  cases attributeList with
  | nil => rfl
  | cons a rest => rfl

end Element

/-- The class value of an element's node does not depend on its key, its bindings or its body. -/
theorem Element.classValue?_node (scope : BlockScope) (key : Option Script.Expr) (e : Element) :
    (e.node scope key).classValue? = classOf (classParts scope e.name e.classes e.attributes) := by
  rw [node, statement, Statement.node]
  refine lookup_attrs_assemble ?_
  rw [lookup_eq_none_iff]
  intro store hstore
  rw [Contribution.prelude_ofBody] at hstore
  obtain ⟨store, hname⟩ := Contribution.stores_ofBody hstore
  rw [hname, bne_iff_ne]
  intro heq
  have hfront := congrArg (head? ∘ String.toList) heq
  simp at hfront

/-! ## The words of the class value -/

/-- The names of the classes in force: first those without a condition, then those whose condition
holds. -/
def namesInForce (holds : Expr → Bool) (classes : List ClassClause) : List String :=
  (classes.filter (·.condition.isNone)).map (·.name) ++
    (classes.filter (·.condition.any holds)).map (·.name)

/-- The words of an element's class: the class of the block, if the element has a class or is one
that styles name, the names in force and the words of its class attributes. -/
def classWords (scope : BlockScope) (holds : Expr → Bool) (name : String)
    (classes : List ClassClause) (texts : List String) : List String :=
  (if classes.isEmpty && !scope.bareElements.contains name then [] else [scope.blockName]) ++
    namesInForce holds classes ++ texts.flatMap words

namespace Script.Interpretation

variable {V : Type} (I : Interpretation V)

/-- Strings are added by appending them. -/
def AddsStrings : Prop :=
  ∀ s t, I.operate (.arith .add) (I.string s) (I.string t) = I.string (s ++ t)

/-- Whether a condition holds. -/
def holds (env : Env V) (x : Stencil.Expr) : Bool := I.truthy (I.eval env x.lower)

variable {I} {env : Env V}

theorem eval_spaced (hadd : I.AddsStrings) {first : Expr} {rest : List Expr} {text : String}
    {texts : List String} (hfirst : I.eval env first = I.string text)
    (hrest : rest.map (I.eval env) = texts.map I.string) :
    ∃ whole, I.eval env (Element.spaced first rest) = I.string whole ∧
      words whole = words text ++ texts.flatMap words := by
  induction rest generalizing first text texts with
  | nil =>
    obtain rfl : texts = [] := by simpa using hrest
    exact ⟨text, hfirst, by simp⟩
  | cons part rest ih =>
    cases texts with
    | nil => cases hrest
    | cons t texts =>
      obtain ⟨hpart, hlater⟩ := cons.inj hrest
      have hsum : I.eval env (Expr.concat first [.string " ", part]) = I.string (text ++ " " ++ t) := by
        rw [eval_concat]
        simp only [map_cons, map_nil, foldl_cons, foldl_nil, hfirst, hpart, eval, hadd _ _]
      obtain ⟨whole, hwhole, hwords⟩ := ih hsum hlater
      refine ⟨whole, hwhole, ?_⟩
      rw [hwords, words_append_space, flatMap_cons, append_assoc]

end Script.Interpretation

section Words

variable {V : Type} {I : Interpretation V} {env : Env V} {scope : BlockScope} {name : String}
  {classes : List ClassClause} {attributes : List (String × Expr)} {texts : List String}

/-- The texts of the conditional classes: the name, or nothing. -/
theorem exists_conditional_texts (hnames : ∀ c ∈ classes, isOneWord c.name) :
    ∃ given : List String, (classes.filterMap Element.conditionalClass).map (I.eval env) = given.map I.string ∧
      given.flatMap words = (classes.filter (·.condition.any (I.holds env))).map (·.name) := by
  induction classes with
  | nil => exact ⟨[], rfl, rfl⟩
  | cons c classes ih =>
    obtain ⟨hc, hclasses⟩ := forall_mem_cons.mp hnames
    obtain ⟨given, hgiven, hwords⟩ := ih hclasses
    cases hcondition : c.condition with
    | none =>
      refine ⟨given, ?_, ?_⟩
      · rw [filterMap_cons, Element.conditionalClass, hcondition]
        exact hgiven
      · rw [filter_cons, hcondition]
        exact hwords
    | some x =>
      have hpart : Element.conditionalClass c =
          some (.ternary x.lower (.string c.name) (.string "")) := by
        rw [Element.conditionalClass, hcondition]
        rfl
      rw [filterMap_cons, hpart, filter_cons, hcondition, Option.any_some]
      by_cases hx : I.holds env x
      · refine ⟨c.name :: given, ?_, ?_⟩
        · rw [map_cons, Interpretation.eval, ← Interpretation.holds, if_pos hx, hgiven]
          rfl
        · rw [flatMap_cons, words_of_isOneWord hc, hwords, if_pos hx]
          rfl
      · refine ⟨"" :: given, ?_, ?_⟩
        · rw [map_cons, Interpretation.eval, ← Interpretation.holds, if_neg hx, hgiven]
          rfl
        · rw [flatMap_cons, Text.words_empty, hwords, if_neg hx]
          rfl

theorem exists_part_texts (hscope : isOneWord scope.blockName)
    (hnames : ∀ c ∈ classes, isOneWord c.name)
    (htexts : ((attributes.filter (·.1 = "class")).map fun a => I.eval env a.2.lower) =
      texts.map I.string) :
    ∃ given : List String, (Element.classParts scope name classes attributes).map (I.eval env) =
        given.map I.string ∧
      given.flatMap words =
        classWords scope (I.holds env) name classes texts := by
  obtain ⟨given, hgiven, hwords⟩ := @exists_conditional_texts V I env classes hnames
  have hmarked : Element.fixedClasses scope name classes =
      (if classes.isEmpty && !scope.bareElements.contains name then [] else [scope.blockName]) ++
        (classes.filter (·.condition.isNone)).map (·.name) := by
    have hne : scope.blockName.isEmpty = false := by
      simpa using (Text.isOneWord_iff.mp hscope).1
    unfold Element.fixedClasses
    dsimp only
    rw [hne]
    cases classes.isEmpty <;> cases scope.bareElements.contains name <;> rfl
  have hfixed : ∀ t ∈ Element.fixedClasses scope name classes, isOneWord t := by
    rw [hmarked]
    refine forall_mem_append.mpr ⟨fun t ht => ?_, fun t ht => ?_⟩
    · split at ht
      · cases ht
      · obtain rfl := mem_singleton.mp ht
        exact hscope
    · obtain ⟨c, hc, rfl⟩ := mem_map.mp ht
      exact hnames c (mem_filter.mp hc).1
  -- The fixed classes are one part, unless there are none.
  have hfront : ∃ front : List String,
      ((if (Element.fixedClasses scope name classes).isEmpty then []
        else [Script.Expr.string (" ".intercalate (Element.fixedClasses scope name classes))]).map
          (I.eval env)) = front.map I.string ∧
      front.flatMap words = Element.fixedClasses scope name classes := by
    cases hempty : (Element.fixedClasses scope name classes).isEmpty with
    | true => exact ⟨[], rfl, (isEmpty_iff.mp hempty).symm⟩
    | false =>
      refine ⟨[" ".intercalate (Element.fixedClasses scope name classes)], rfl, ?_⟩
      rw [flatMap_singleton, words_intercalate hfixed]
  obtain ⟨front, hparts, hfrontWords⟩ := hfront
  refine ⟨front ++ given ++ texts, ?_, ?_⟩
  · unfold Element.classParts
    dsimp only
    rw [map_append, map_append, hparts, hgiven, map_map, map_append, map_append, ← htexts]
    rfl
  · rw [flatMap_append, flatMap_append, hfrontWords, hwords, hmarked, classWords, namesInForce]
    simp only [append_assoc]

/-- The class value is a string with the words of the element's class. -/
theorem eval_classOf (hadd : I.AddsStrings) (hscope : isOneWord scope.blockName)
    (hnames : ∀ c ∈ classes, isOneWord c.name)
    (htexts : ((attributes.filter (·.1 = "class")).map fun a => I.eval env a.2.lower) =
      texts.map I.string) :
    (Element.classOf (Element.classParts scope name classes attributes)).elim
      (classWords scope (I.holds env) name classes texts = [])
      fun x => ∃ whole, I.eval env x = I.string whole ∧ words whole =
        classWords scope (I.holds env) name classes texts := by
  obtain ⟨given, hgiven, hwords⟩ :=
    @exists_part_texts V I env scope name classes attributes texts hscope hnames htexts
  rw [← hwords]
  generalize Element.classParts scope name classes attributes = parts at hgiven
  cases parts with
  | nil =>
    obtain rfl : given = [] := by simpa using hgiven.symm
    rfl
  | cons first rest =>
    cases given with
    | nil => cases hgiven
    | cons text given =>
      obtain ⟨hfirst, hrest⟩ := cons.inj hgiven
      exact Interpretation.eval_spaced hadd hfirst hrest

end Words

end Stencil
