import Mathlib.Data.List.Induction
import Stencil.Template.Basic

/-!
# Scoping again and again

A template may be scoped to one name after another. Each selector then has the names in front of its
own classes, the last one first. A name is left out where the class right after it is the same, be it
the name before it or a class of the selector.
-/
namespace Stencil

open List

/-- Names in front of classes, but none in front of its equal. -/
def withNames : List String → List String → List String
  | [], classes => classes
  | name :: names, classes =>
    if (names ++ classes).head? = some name then withNames names classes
    else name :: withNames names classes

/-! Other classes in all selectors, and everything else as it was. -/

def Selector.mapClasses (f : List String → List String) (s : Selector) : Selector :=
  { s with classes := f s.classes }

def Rule.mapClasses (f : List String → List String) (r : Rule) : Rule :=
  { r with selectors := r.selectors.map (Selector.mapClasses f) }

def StyleBlock.mapClasses (f : List String → List String) (b : StyleBlock) : StyleBlock :=
  { b with rules := b.rules.map (Rule.mapClasses f) }

def Block.mapClasses (f : List String → List String) : Block → Block
  | .style b => .style (b.mapClasses f)
  | b => b

def Template.mapClasses (f : List String → List String) (t : Template) : Template :=
  { t with blocks := t.blocks.map (Block.mapClasses f) }

/-- The template scoped to one name after another. -/
def Template.scopedToAll (names : List String) (t : Template) : Template :=
  names.foldl (fun t name => t.scopedTo name) t

/-! ## Classes -/

theorem head?_withNames (names classes : List String) :
    (withNames names classes).head? = (names ++ classes).head? := by
  induction names with
  | nil => rfl
  | cons name names ih =>
    unfold withNames
    split
    · next h => rw [ih, h, cons_append, head?_cons]
    · rfl

/-- Own classes stay, in their order. -/
theorem exists_withNames (names classes : List String) :
    ∃ added, added.Sublist names ∧ withNames names classes = added ++ classes := by
  induction names with
  | nil => exact ⟨[], List.Sublist.refl _, rfl⟩
  | cons name names ih =>
    obtain ⟨added, hadded, heq⟩ := ih
    unfold withNames
    split
    · exact ⟨added, hadded.cons name, heq⟩
    · exact ⟨name :: added, hadded.cons_cons name, by rw [heq, cons_append]⟩

theorem withNames_twice (front names classes : List String) (name : String) :
    withNames (front ++ name :: name :: names) classes =
      withNames (front ++ name :: names) classes := by
  induction front with
  | nil => rw [nil_append, nil_append, withNames, cons_append, head?_cons, if_pos rfl]
  | cons first front ih =>
    have hnext : (front ++ name :: name :: names ++ classes).head? =
        (front ++ name :: names ++ classes).head? := by
      cases front <;> rfl
    rw [cons_append, cons_append, withNames, withNames, hnext, ih]

/-- The name that a selector is scoped to last is compared with the class that is in front by then. -/
theorem Selector.scopedTo_withNames (name : String) (names : List String) (s : Selector) :
    (s.mapClasses (withNames names)).scopedTo name = s.mapClasses (withNames (name :: names)) := by
  unfold scopedTo mapClasses
  rw [head?_withNames, withNames]
  split <;> rfl

/-! ## Templates -/

namespace Template

theorem mapClasses_id (t : Template) : t.mapClasses id = t := by
  have hselector : Selector.mapClasses id = id := rfl
  have hrule : Rule.mapClasses id = id := by
    funext r
    simp [Rule.mapClasses, hselector]
  have hblock : Block.mapClasses id = id := by
    funext b
    cases b <;> simp [Block.mapClasses, StyleBlock.mapClasses, hrule]
  simp [mapClasses, hblock]

theorem scopedTo_withNames (name : String) (names : List String) (t : Template) :
    (t.mapClasses (withNames names)).scopedTo name = t.mapClasses (withNames (name :: names)) := by
  have hrule : ∀ r : Rule,
      (r.mapClasses (withNames names)).scopedTo name = r.mapClasses (withNames (name :: names)) := by
    intro r
    simp [Rule.scopedTo, Rule.mapClasses, Selector.scopedTo_withNames]
  have hblock : ∀ b : Block,
      (b.mapClasses (withNames names)).scopedTo name = b.mapClasses (withNames (name :: names)) := by
    intro b
    cases b <;> simp [Block.scopedTo, Block.mapClasses, StyleBlock.scopedTo, StyleBlock.mapClasses,
      hrule]
  simp [scopedTo, mapClasses, hblock]

theorem scopedToAll_eq (names : List String) (t : Template) :
    t.scopedToAll names = t.mapClasses (withNames names.reverse) := by
  induction names using reverseRecOn with
  | nil => exact t.mapClasses_id.symm
  | append_singleton names name ih =>
    unfold scopedToAll at ih ⊢
    rw [foldl_append, ih, foldl_cons, foldl_nil, scopedTo_withNames, reverse_append]
    rfl

theorem rules_mapClasses (f : List String → List String) (t : Template) :
    (t.mapClasses f).rules = t.rules.map (Rule.mapClasses f) := by
  have hblocks : (t.mapClasses f).styleBlocks = t.styleBlocks.map (StyleBlock.mapClasses f) := by
    rw [styleBlocks, styleBlocks, mapClasses, filterMap_map, map_filterMap]
    congr 1
    funext b
    cases b <;> rfl
  rw [rules, rules, hblocks, flatMap_map, map_flatMap]
  rfl

/-- A selector with a class is not bare. -/
theorem bareElements_mapClasses {f : List String → List String} (h : ∀ classes, f classes ≠ [])
    (t : Template) : (t.mapClasses f).bareElements = [] := by
  have hbare : ∀ s ∈ (t.mapClasses f).rules.flatMap (·.selectors), ¬s.isBare := by
    intro s hs
    rw [rules_mapClasses, flatMap_map] at hs
    obtain ⟨r, -, hs⟩ := mem_flatMap.mp hs
    obtain ⟨own, -, rfl⟩ := mem_map.mp hs
    simp [Selector.isBare, Selector.mapClasses, h]
  rw [bareElements, filter_eq_nil_iff.mpr hbare]
  rfl

/-- Scoping to one name after another puts the names in front of the classes that each selector has of
its own, and changes nothing else. -/
theorem scopedToAll_composes (names : List String) (t : Template) :
    t.scopedToAll names = t.mapClasses (withNames names.reverse) ∧
      (∀ classes, ∃ added, added.Sublist names.reverse ∧
        withNames names.reverse classes = added ++ classes) ∧
      (∀ front name later, t.scopedToAll (front ++ name :: name :: later) =
        t.scopedToAll (front ++ name :: later)) ∧
      (t.scopedToAll names).bareElements = if names.isEmpty then t.bareElements else [] := by
  refine ⟨t.scopedToAll_eq names, exists_withNames names.reverse, ?_, ?_⟩
  · intro front name later
    have hreverse : ∀ names, (front ++ name :: names).reverse =
        names.reverse ++ name :: front.reverse := by simp
    rw [scopedToAll_eq, scopedToAll_eq, hreverse, hreverse, List.reverse_cons, List.append_assoc]
    congr 1
    funext classes
    exact withNames_twice later.reverse front.reverse classes name
  · cases names using List.reverseRecOn with
    | nil => rfl
    | append_singleton names name =>
      rw [scopedToAll_eq, List.reverse_append, bareElements_mapClasses, if_neg (by simp)]
      intro classes hnil
      have hhead := head?_withNames ([name].reverse ++ names.reverse) classes
      rw [hnil] at hhead
      cases hhead

end Template
end Stencil
