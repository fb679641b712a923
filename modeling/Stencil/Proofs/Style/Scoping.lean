import Stencil.Compile
import Stencil.Proofs.Markup.Classes
import Stencil.Proofs.Token.Endings

/-!
# Styles and markup agree on scoping

Scoping puts the class of the block in front of every selector, and markup gives that class to every
element that a selector of the template can match. So a selector that matches an element matches it
after scoping, by the words of its class in the code.
-/
namespace Stencil

open Script (Interpretation Env)
open Text (words isOneWord isOneWord_iff)
open List Selector

/-! ## Selectors -/

namespace Selector

/-- A selector matches an element by its tag and its classes. The state is not looked at. -/
def matchesElement (tag : String) (classes : List String) (s : Selector) : Bool :=
  (s.element.isEmpty || s.element = tag) && s.classes.all classes.contains

variable {s : Selector}

theorem matchesElement_iff {tag : String} {classes : List String} : s.matchesElement tag classes ↔
      (s.element = "" ∨ s.element = tag) ∧ ∀ c ∈ s.classes, c ∈ classes := by
  simp [matchesElement]

theorem head?_scopedTo (name : String) (s : Selector) :
    (s.scopedTo name).classes.head? = some name := by
  unfold scopedTo
  split
  · assumption
  · rfl

theorem element_scopedTo (name : String) (s : Selector) : (s.scopedTo name).element = s.element := by
  unfold scopedTo
  split <;> rfl

theorem mem_classes_scopedTo {name c : String} (h : c ∈ (s.scopedTo name).classes) :
    c = name ∨ c ∈ s.classes := by
  unfold scopedTo at h
  split at h
  · exact .inr h
  · exact mem_cons.mp h

/-- A selector asks for something. -/
def isNamed (s : Selector) : Bool := !(s.element.isEmpty && s.classes.isEmpty)

theorem parser_isNamed {T : Reading → Token → Prop} : Selector.parser.Gives T (·.isNamed) := by
  refine .after fun t => ?_
  extract_lets named
  have hnamed : ∀ front, (named front).Gives T (·.isNamed) := by
    intro front
    refine .after fun suffixes => .ite (fun _ => .fail _) fun hne => .after fun state => .pure ?_
    rw [isNamed, Bool.not_eq_true']
    exact Bool.eq_false_iff.mpr hne
  exact .ite (fun _ => .after fun _ => .after hnamed) fun _ => .after hnamed

end Selector

namespace Template

/-- All selectors of a template, in the order of the source. -/
def selectors (t : Template) : List Selector := t.rules.flatMap (·.selectors)

theorem styleBlocks_scopedTo (name : String) (t : Template) :
    (t.scopedTo name).styleBlocks = t.styleBlocks.map (StyleBlock.scopedTo name) := by
  rw [styleBlocks, styleBlocks, scopedTo, filterMap_map, map_filterMap]
  congr 1
  funext block
  cases block <;> rfl

theorem selectors_scopedTo (name : String) (t : Template) :
    (t.scopedTo name).selectors = t.selectors.map (Selector.scopedTo name) := by
  rw [selectors, selectors, rules, rules, styleBlocks_scopedTo, map_flatMap]
  simp only [flatMap_assoc, flatMap_map, StyleBlock.scopedTo, Rule.scopedTo]

theorem isNamed_of_read {file source : String} {t : Template}
    (h : Template.read file source = .ok t) {s : Selector} (hs : s ∈ t.selectors) :
    s.isNamed := by
  have hrule : Rule.parser.Gives (SpelledFrom source) fun r =>
      ∀ s ∈ r.selectors, s.isNamed :=
    .after fun _ => parser_isNamed.commaList1.bind fun _ hs =>
      .after fun _ => .after fun _ => .after fun _ => .pure hs.2
  have hstyle (position : Position) : (StyleBlock.parser position).Gives (SpelledFrom source)
      fun b => ∀ r ∈ b.rules, ∀ s ∈ r.selectors, s.isNamed :=
    .after fun params => .after fun _ => hrule.indented.bind fun _ hrules => .pure hrules
  have hblocks := Template.parser_gives hstyle fun _ => .any _
  obtain ⟨r, hr, hselector⟩ := mem_flatMap.mp hs
  obtain ⟨b, hb, hrule⟩ := mem_flatMap.mp hr
  exact (Template.of_read_spelled hblocks h).1 b hb r hrule s hselector

/-- A style of the template names the tag without a class. -/
def isBareTag (tag : String) (t : Template) : Bool :=
  t.selectors.any fun s => s.isBare && s.element = tag

theorem contains_bareElements (tag : String) (t : Template) :
    t.bareElements.contains tag = t.isBareTag tag := by
  rw [Bool.eq_iff_iff, contains_iff_mem, bareElements, mem_eraseDups, isBareTag, any_eq_true]
  simp only [mem_map, mem_filter, Bool.and_eq_true, decide_eq_true_eq, and_assoc]
  rfl

/-- How markup is compiled if the block has this name. -/
def scope (name : String) (t : Template) : BlockScope := ⟨name, t.bareElements⟩

end Template

/-! ## Selectors match after scoping -/

section Matching

variable {t : Template} {name tag : String} {holds : Expr → Bool} {classes : List ClassClause}
  {s : Selector}

/-- An element that a selector matches has a class, or its tag is bare. -/
theorem marked_of_matchesElement (hnamed : s.isNamed) (hs : s ∈ t.selectors)
    (h : s.matchesElement tag (namesInForce holds classes)) :
    (classes.isEmpty && !t.isBareTag tag) = false := by
  obtain ⟨helement, hclasses⟩ := matchesElement_iff.mp h
  by_cases hempty : s.classes = []
  · have hne : s.element ≠ "" := by
      intro hnone
      simp [isNamed, hnone, hempty] at hnamed
    have htag : s.element = tag := helement.resolve_left hne
    have hisBare : s.isBare := by simp [isBare, hempty, hne]
    have hbare : t.isBareTag tag :=
      any_eq_true.mpr ⟨s, hs, by rw [hisBare, htag, Bool.true_and, decide_eq_true rfl]⟩
    rw [hbare, Bool.not_true, Bool.and_false]
  · obtain ⟨c, hc⟩ := exists_mem_of_ne_nil _ hempty
    have hforce := hclasses c hc
    cases classes with
    | nil => cases hforce
    | cons clause rest => rfl

theorem matchesElement_scopedTo {others : List String}
    (hmarked : (classes.isEmpty && !t.isBareTag tag) = false)
    (h : s.matchesElement tag (namesInForce holds classes)) :
    (s.scopedTo name).matchesElement tag
      ((if classes.isEmpty && !t.isBareTag tag then [] else [name]) ++
        namesInForce holds classes ++ others) := by
  obtain ⟨helement, hclasses⟩ := matchesElement_iff.mp h
  rw [hmarked, matchesElement_iff, element_scopedTo]
  refine ⟨helement, fun c hc => ?_⟩
  rcases mem_classes_scopedTo hc with rfl | hown
  · simp
  · simp [hclasses c hown]

end Matching

/-- The words that the class of an element should have, for a truth assignment of its conditions and
the texts of its class attributes. -/
def Element.classWords (name : String) (t : Template) (holds : Expr → Bool) (texts : List String)
    (e : Element) : List String :=
  (if e.classes.isEmpty && !t.isBareTag e.name then [] else [name]) ++
    namesInForce holds e.classes ++ texts.flatMap words

/-- What it means that styles and markup agree on the class of the block. -/
structure Template.AgreesOn (name : String) (t : Template) : Prop where
  /-- Every selector is scoped at its place. -/
  inPlace : (t.scopedTo name).selectors = t.selectors.map (Selector.scopedTo name)
  /-- Every scoped selector has the class of the block in front. -/
  front : ∀ s ∈ (t.scopedTo name).selectors, s.classes.head? = some name
  /-- The code has one function for each markup block, in order. -/
  functions : t.lower (t.scope name) = t.blocks.flatMap (Block.functions (t.scope name))
  /-- The function of a block has a node for every element. -/
  compiled : ∀ b ∈ t.markupBlocks, b.lower (t.scope name) ∈ t.lower (t.scope name) ∧
    ∀ e ∈ Statement.elementsOf b.body,
      ∃ key, e.node (t.scope name) key ∈ (b.lower (t.scope name)).parts
  /-- The class value of the node, if there is one, is a string with the words it should have. -/
  worded : ∀ b ∈ t.markupBlocks, ∀ e ∈ Statement.elementsOf b.body,
    ∀ key (V : Type) (I : Interpretation V) (env : Env V) (texts : List String), I.AddsStrings →
      ((e.attributes.filter (·.1 = "class")).map fun a => I.eval env a.2.lower) =
        texts.map I.string →
      ∀ x ∈ (e.node (t.scope name) key).classValue?, ∃ whole, I.eval env x = I.string whole ∧
        words whole = e.classWords name t (I.holds env) texts
  /-- A selector that matches the element matches these words after scoping, and then there is a
  class value. -/
  matched : ∀ b ∈ t.markupBlocks, ∀ e ∈ Statement.elementsOf b.body,
    ∀ (holds : Expr → Bool) (texts : List String), ∀ s ∈ t.selectors,
      s.matchesElement e.name (namesInForce holds e.classes) = true →
        (∀ key, (e.node (t.scope name) key).classValue?.isSome = true) ∧
        (s.scopedTo name).matchesElement e.name (e.classWords name t holds texts) = true

/-- An element with a class, or with a bare tag, starts its class value with the fixed classes. -/
theorem Element.classParts_of_marked {t : Template} {blockName : String} {e : Element}
    (hname : blockName ≠ "") (hmarked : (e.classes.isEmpty && !t.isBareTag e.name) = false) :
    ∃ rest, classParts (t.scope blockName) e.name e.classes e.attributes =
      .string (" ".intercalate
        (blockName :: (e.classes.filter (·.condition.isNone)).map (·.name))) :: rest := by
  have hfixed : fixedClasses (t.scope blockName) e.name e.classes =
      blockName :: (e.classes.filter (·.condition.isNone)).map (·.name) := by
    have hempty : (t.scope blockName).blockName.isEmpty = false := by
      rw [Template.scope]
      simpa using hname
    have hbare := t.contains_bareElements e.name
    unfold fixedClasses
    dsimp only
    rw [hempty, Template.scope]
    dsimp only
    rw [hbare]
    revert hmarked
    cases e.classes.isEmpty <;> cases t.isBareTag e.name <;> simp
  unfold classParts
  dsimp only
  rw [hfixed]
  exact ⟨_, rfl⟩

/-- Styles and markup agree on every name without a space. -/
theorem Template.styles_agree_with_markup {file source : String} {t : Template}
    (hread : Template.read file source = .ok t) {name : String} (hname : name ≠ "")
    (hspace : ' ' ∉ name.toList) : t.AgreesOn name where
  inPlace := t.selectors_scopedTo name
  front := by
    intro s hs
    rw [t.selectors_scopedTo name] at hs
    obtain ⟨own, -, rfl⟩ := List.mem_map.mp hs
    exact own.head?_scopedTo name
  functions := t.lower_eq_flatMap _
  compiled b hb := ⟨List.mem_map_of_mem hb, fun e he => b.node_mem_parts (t.scope name) he⟩
  worded := by
    intro b hb e he key V I env texts hadd htexts x hx
    have hnames : ∀ c ∈ e.classes, isOneWord c.name = true :=
      List.all_eq_true.mp (Template.worded_of_read hread hb e he)
    have hvalue := @eval_classOf V I env (t.scope name) e.name e.classes e.attributes texts hadd
      (isOneWord_iff.mpr ⟨hname, hspace⟩) hnames htexts
    rw [Element.classValue?_node] at hx
    rw [hx, Option.elim_some, classWords, Template.scope, t.contains_bareElements e.name] at hvalue
    exact hvalue
  matched := by
    intro b hb e he holds texts s hs h
    have hmarked := marked_of_matchesElement (Template.isNamed_of_read hread hs) hs h
    refine ⟨fun key => ?_, matchesElement_scopedTo hmarked h⟩
    obtain ⟨rest, hparts⟩ := Element.classParts_of_marked hname hmarked
    rw [Element.classValue?_node, hparts]
    rfl

def cardsSource : String :=
  "css:\n  p, .card.big\n    color: red\nview(wide):\n  div.card.big?(wide)[class=\"x y\"]\n" ++
  "    p \"hello\"\ncss:\n  .card:hover\n    color: blue\n"

theorem cards_styles_agree : ∃ t, Template.read "cards" cardsSource = .ok t ∧
    t.selectors = [⟨"p", [], ""⟩, ⟨"", ["card", "big"], ""⟩, ⟨"", ["card"], "hover"⟩] ∧
    "cards" ≠ "" ∧ ' ' ∉ "cards".toList ∧ t.AgreesOn "cards" := by
  have hcheck : ((Template.read "cards" cardsSource).toOption.any fun t => t.selectors =
      [⟨"p", [], ""⟩, ⟨"", ["card", "big"], ""⟩, ⟨"", ["card"], "hover"⟩]) = true := by
    decide +kernel
  obtain ⟨t, hread, hselectors⟩ := exists_of_toOption hcheck
  exact ⟨t, hread, of_decide_eq_true hselectors, by decide, by decide,
    Template.styles_agree_with_markup hread (by decide) (by decide)⟩

end Stencil
