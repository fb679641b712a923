import Mathlib.Data.List.Perm.Basic
import Stencil.Proofs.Style.Scoping

/-!
# The class of the block in the outputs

A name that is made from the file name goes into two texts: into the selectors of the style sheet,
where dots and colons set names apart, and into the class values of the code, where spaces do. An
element that has a class of its own, or whose tag is bare, starts its class value with a literal that
names all classes that scoping added to the selectors.
-/
namespace Stencil

open Text (words isOneWord isOneWord_iff split)
open List String

/-! ## Classes in the text of a selector -/

namespace Selector

/-- A text up to a colon. -/
def upToColon (text : String) : String := String.ofList (text.toList.takeWhile (· ≠ ':'))

/-- The names that a text has after its dots, up to a colon. -/
def classesIn (text : String) : List String := (split '.' (upToColon text)).tail

/-- The class names that scoping adds to the text of a selector. -/
def contributed (name : String) (s : Selector) : List String :=
  (classesIn (s.scopedTo name).text).diff (classesIn s.text)

variable {a name : String}

theorem upToColon_append (h : ':' ∉ a.toList) (b : String) :
    upToColon (a ++ b) = a ++ upToColon b := by
  have hall : ∀ c ∈ a.toList, (decide (c ≠ ':')) := by
    intro c hc
    refine decide_eq_true ?_
    rintro rfl
    exact h hc
  rw [upToColon, upToColon, toList_append, takeWhile_append_of_pos hall,
    ofList_append, ofList_toList]

theorem upToColon_append_of_mem (h : ':' ∈ a.toList) (b : String) :
    upToColon (a ++ b) = upToColon a := by
  have hshort : (a.toList.takeWhile (· ≠ ':')).length ≠ a.toList.length := by
    intro hlength
    have hself := ( takeWhile_prefix (· ≠ ':')).eq_of_length hlength
    have hcolon := takeWhile_eq_self_iff.mp hself ':' h
    simp at hcolon
  rw [upToColon, upToColon, toList_append, takeWhile_append, if_neg hshort]

theorem tail_split_append (s t : String) :
    (split '.' (s ++ "." ++ t)).tail = (split '.' s).tail ++ split '.' t := by
  have hdot : s ++ "." ++ t = s ++ singleton '.' ++ t := rfl
  rw [hdot, Text.split_append]
  cases hparts : split '.' s with
  | nil => exact absurd hparts (Text.split_ne_nil '.' s)
  | cons part parts => rfl

/-- A name in front of the classes of a text is read as one more class. -/
theorem classesIn_insert {element rest : String} (helement : ':' ∉ element.toList)
    (hname : '.' ∉ name.toList ∧ ':' ∉ name.toList)
    (hrest : upToColon rest = "" ∨ ∃ later, upToColon rest = "." ++ later) :
    ∃ front back, classesIn (element ++ rest) = front ++ back ∧
      classesIn (element ++ "." ++ name ++ rest) = front ++ name :: back := by
  have hwhole : upToColon (element ++ "." ++ name ++ rest) =
      element ++ "." ++ (name ++ upToColon rest) := by
    rw [upToColon_append, String.append_assoc]
    simp [helement, hname.2]
  rw [classesIn, classesIn, hwhole, upToColon_append helement, tail_split_append]
  refine ⟨(split '.' element).tail, ?_⟩
  rcases hrest with hnone | ⟨later, hlater⟩
  · refine ⟨[], ?_, ?_⟩
    · rw [hnone, append_empty, append_nil]
    · rw [hnone, append_empty, Text.split_of_not_mem hname.1]
  · refine ⟨split '.' later, ?_, ?_⟩
    · rw [hlater, ← String.append_assoc, tail_split_append]
    · have hsplit : split '.' (name ++ ("." ++ later)) = name :: split '.' later := by
        have hdot : name ++ ("." ++ later) = name ++ String.singleton '.' ++ later :=
          (String.append_assoc ..).symm
        rw [hdot, Text.split_append, Text.split_of_not_mem hname.1]
        rfl
      rw [hlater, hsplit]

theorem append_diff_self (l m : List String) : (l ++ m).diff l = m := by
  induction l with
  | nil => rfl
  | cons a l ih => rw [cons_append, diff_cons, erase_cons_head, ih]

/-- Scoping adds the name of the block to a selector, and nothing else. -/
theorem eq_of_mem_contributed {c : String} (hname : '.' ∉ name.toList ∧ ':' ∉ name.toList)
    {s : Selector} (hc : c ∈ s.contributed name) : c = name := by
  unfold contributed at hc
  by_cases hown : s.classes.head? = some name
  · have hself := append_diff_self (classesIn s.text) []
    rw [append_nil] at hself
    rw [scopedTo, if_pos hown, hself] at hc
    cases hc
  rw [scopedTo, if_neg hown] at hc
  -- Both texts have the same rest: what follows the place where the name goes.
  obtain ⟨element, classes, state⟩ := s
  generalize hrest : String.join (classes.map ("." ++ ·)) ++
    (if state.isEmpty then "" else ":" ++ state) = rest
  have htext : text ⟨element, classes, state⟩ = element ++ rest := by
    rw [text, String.append_assoc, hrest]
  have hscoped : text ⟨element, name :: classes, state⟩ = element ++ "." ++ name ++ rest := by
    rw [text, map_cons, String.join_cons, ← hrest]
    simp only [String.append_assoc]
  rw [htext, hscoped] at hc
  by_cases helement : ':' ∈ element.toList
  · have hself := append_diff_self (classesIn (element ++ rest)) []
    rw [append_nil] at hself
    have hsame : classesIn (element ++ "." ++ name ++ rest) = classesIn (element ++ rest) := by
      rw [classesIn, classesIn, String.append_assoc, String.append_assoc,
        upToColon_append_of_mem helement, upToColon_append_of_mem helement]
    rw [hsame, hself] at hc
    cases hc
  · have hfront : upToColon rest = "" ∨ ∃ later, upToColon rest = "." ++ later := by
      rw [← hrest]
      cases classes with
      | cons d classes =>
        refine .inr ⟨upToColon (d ++ (String.join (classes.map ("." ++ ·)) ++
          (if state.isEmpty then "" else ":" ++ state))), ?_⟩
        rw [map_cons, String.join_cons, String.append_assoc, String.append_assoc,
          upToColon_append (by decide)]
      | nil =>
        refine .inl ?_
        split
        · rfl
        · rw [map_nil, String.join_nil, String.empty_append, upToColon, String.toList_append]
          rfl
    obtain ⟨front, back, hbefore, hafter⟩ := classesIn_insert helement hname hfront
    rw [hbefore, hafter] at hc
    have hperm : (front ++ name :: back).Perm (front ++ back ++ [name]) :=
      (perm_middle).trans (perm_append_singleton name (front ++ back)).symm
    have hmem := (hperm.diff_right (front ++ back)).subset hc
    rw [append_diff_self] at hmem
    exact mem_singleton.mp hmem

end Selector

/-! ## The literal in front of a class value -/

/-- The literal that an expression starts with. -/
def Script.Expr.literalPrefix : Script.Expr → String
  | .string text => text
  | .operation _ left _ => left.literalPrefix
  | _ => ""

theorem Element.literalPrefix_spaced (first : Script.Expr) (rest : List Script.Expr) :
    (spaced first rest).literalPrefix = first.literalPrefix := by
  induction rest generalizing first with
  | nil => rfl
  | cons part rest ih =>
    rw [spaced, foldl_cons, ← spaced, ih]
    rfl

variable {piece : ByteArray} {pieces : List ByteArray} {text file : String} {t : Template}

/-- All classes that scoping adds to the selectors are words of the literal that the class value of
a node starts with, if it has one. -/
def Template.isScopedNode (name : String) (t : Template) (node : Script.Expr) : Bool :=
  node.classValue?.all fun value => t.selectors.all fun s =>
    (s.contributed name).all (words value.literalPrefix).contains

/-! ## What is in the outputs -/

theorem Text.mem_joinBytes (h : piece ∈ pieces) :
    ∃ before after, joinBytes pieces = before ++ piece ++ after := by
  have hfold : ∀ (pieces : List ByteArray) (start : ByteArray),
      ∃ after, pieces.foldl (· ++ ·) start = start ++ after := by
    intro pieces
    induction pieces with
    | nil => exact fun start => ⟨.empty, ByteArray.append_empty.symm⟩
    | cons p pieces ih =>
      intro start
      obtain ⟨after, hafter⟩ := ih (start ++ p)
      exact ⟨p ++ after, by rw [foldl_cons, hafter, ByteArray.append_assoc]⟩
  obtain ⟨init, rest, rfl⟩ := append_of_mem h
  rw [joinBytes, foldl_append, foldl_cons]
  obtain ⟨after, hafter⟩ := hfold rest (init.foldl (· ++ ·) .empty ++ piece)
  exact ⟨_, after, hafter⟩

/-- A text stands somewhere in bytes. -/
def EmittedIn (bytes : ByteArray) (text : String) : Prop :=
  ∃ before after, bytes = before ++ text.toUTF8 ++ after

theorem EmittedIn.join (hpiece : piece ∈ pieces) (h : EmittedIn piece text) :
    EmittedIn (Text.joinBytes pieces) text := by
  obtain ⟨before, after, hjoin⟩ := Text.mem_joinBytes hpiece
  obtain ⟨inner, outer, rfl⟩ := h
  refine ⟨before ++ inner, outer ++ after, ?_⟩
  rw [hjoin]
  simp only [ByteArray.append_assoc]

theorem exists_intercalate_eq {separator : String} {texts : List String} (h : text ∈ texts) :
    ∃ before after, separator.intercalate texts = before ++ text ++ after := by
  induction texts with
  | nil => cases h
  | cons t texts ih =>
    cases texts with
    | nil =>
      obtain rfl := mem_singleton.mp h
      exact ⟨"", "", by simp⟩
    | cons u texts =>
      rw [String.intercalate_cons_cons]
      rcases mem_cons.mp h with rfl | hlater
      · exact ⟨"", separator ++ separator.intercalate (u :: texts), by
          rw [String.empty_append, String.append_assoc]⟩
      · obtain ⟨before, after, heq⟩ := ih hlater
        refine ⟨t ++ separator ++ before, after, ?_⟩
        rw [heq]
        simp only [String.append_assoc]

/-- The texts of all selectors stand in the style sheet. -/
theorem Template.emittedIn_styleText {s : Selector} (hs : s ∈ t.selectors) (given : Values) :
    EmittedIn (t.styleText given) s.text := by
  obtain ⟨r, hr, hselector⟩ := mem_flatMap.mp hs
  obtain ⟨b, hb, hrule⟩ := mem_flatMap.mp hr
  refine .join (mem_map_of_mem hb) (.join (mem_map_of_mem hrule) ?_)
  obtain ⟨before, after, htexts⟩ := @exists_intercalate_eq _ ", " _ (mem_map_of_mem hselector)
  refine ⟨before.toUTF8, after.toUTF8 ++ " \x7b\n".toUTF8 ++
    Text.joinBytes (r.properties.map (Property.text (b.value? given))) ++ "\x7d\n\n".toUTF8, ?_⟩
  rw [Rule.text, htexts]
  simp only [String.toUTF8, String.toByteArray_append, ByteArray.append_assoc]

/-- What is put around the functions of a template leaves them as they are. -/
theorem Template.mem_parts_codeFor {o : Options} {b : MarkupBlock} (hb : b ∈ t.markupBlocks)
    {x : Script.Expr} (hx : x ∈ (b.lower ⟨o.blockNameFor file, t.bareElements⟩).parts) :
    x ∈ (t.codeFor o file).parts := by
  have hlower : x ∈ (t.lower ⟨o.blockNameFor file, t.bareElements⟩).parts :=
    Script.mem_partsOfBody (mem_map_of_mem hb) hx
  have hstyle : ∀ {css : String} {code : Script.Code}, x ∈ code.parts →
      x ∈ (Script.Code.withStyle css code).parts := by
    intro css code h
    exact mem_append_right _ (mem_append_right _ (mem_append_right _ h))
  have hmodule : ∀ {name : String} {code : Script.Code}, x ∈ code.parts →
      x ∈ (Script.Code.asModule t name code).parts := by
    intro name code h
    have hbody : ∀ before after : Script.Code,
        x ∈ Script.partsOfBody (before ++ code ++ after) := by
      intro before after
      rw [Script.partsOfBody_append, Script.partsOfBody_append]
      exact mem_append_left _ (mem_append_right _ h)
    refine Script.mem_partsOfBody (mem_singleton_self _) (mem_cons_of_mem _ ?_)
    refine mem_append_right _ (Script.mem_partsOfItems
      (mem_append_right _ (mem_cons_of_mem _ (mem_singleton_self _))) ?_)
    exact mem_cons_of_mem _ (hbody _ _)
  unfold codeFor
  extract_lets code loaded
  have hloaded : x ∈ loaded.parts := by
    change x ∈ Script.Code.parts (if o.autoLoadCss then _ else code)
    split
    · exact hstyle hlower
    · exact hlower
  split
  · exact hmodule hloaded
  · exact hloaded

/-! ## The class of the block -/

/-- The class value of an element with a class, or with a bare tag, shows the class of the block. -/
theorem Element.isScopedNode_node {blockName : String} (hname : blockName ≠ "")
    (hplain : ∀ c ∈ blockName.toList, c ≠ '.' ∧ c ≠ ':' ∧ c ≠ ' ') (key : Option Script.Expr)
    {e : Element} (hmarked : (e.classes.isEmpty && !t.isBareTag e.name) = false) :
    (e.node (t.scope blockName) key).classValue?.isSome ∧
      t.isScopedNode blockName (e.node (t.scope blockName) key) := by
  obtain ⟨rest, hparts⟩ := classParts_of_marked hname hmarked
  have hword : isOneWord blockName :=
    isOneWord_iff.mpr ⟨hname, fun hspace => (hplain ' ' hspace).2.2 rfl⟩
  rw [Template.isScopedNode, classValue?_node, hparts, classOf, Option.all_some]
  refine ⟨rfl, all_eq_true.mpr fun s _ => all_eq_true.mpr fun c hc => ?_⟩
  have hdots : '.' ∉ blockName.toList ∧ ':' ∉ blockName.toList :=
    ⟨fun h => (hplain _ h).1 rfl, fun h => (hplain _ h).2.1 rfl⟩
  rw [Selector.eq_of_mem_contributed hdots hc, contains_iff_mem, literalPrefix_spaced,
    Script.Expr.literalPrefix]
  generalize (e.classes.filter (·.condition.isNone)).map (·.name) = names
  cases names with
  | nil =>
    rw [String.intercalate_singleton, Text.words_of_isOneWord hword]
    exact mem_cons_self
  | cons n names =>
    rw [String.intercalate_cons_cons, Text.words_append_space, Text.words_of_isOneWord hword]
    exact mem_cons_self

/-- For a block that is named after its file, by a name without dots, colons and spaces: the
selectors of the style sheet have the class of the block, and so has the class value of every
element that has a class or a bare tag. -/
theorem compile_scope_class {file source : String} {o : Options} {out : Output}
    (hout : compile file source o = .ok out) (hoption : o.blockName = "")
    (hname : defaultBlockName file ≠ "")
    (hplain : ∀ c ∈ (defaultBlockName file).toList, c ≠ '.' ∧ c ≠ ':' ∧ c ≠ ' ') :
    (∀ s ∈ out.template.selectors,
      EmittedIn out.css (s.scopedTo (defaultBlockName file)).text) ∧
    ∃ code, out.js = Script.Code.text o.indent code ∧
      ∀ b ∈ out.template.markupBlocks, ∀ e ∈ Statement.elementsOf b.body,
        e.classes ≠ [] ∨ out.template.isBareTag e.name = true →
        ∃ key, e.node (out.template.scope (defaultBlockName file)) key ∈ code.parts ∧
          (e.node (out.template.scope (defaultBlockName file)) key).classValue?.isSome = true ∧
          out.template.isScopedNode (defaultBlockName file)
            (e.node (out.template.scope (defaultBlockName file)) key) = true := by
  have hread : ∃ t, Template.read file source = .ok t ∧ out = t.output o file := by
    rw [compile] at hout
    cases hread : Template.read file source with
    | error fault =>
      rw [hread] at hout
      cases hout
    | ok t =>
      rw [hread] at hout
      cases hout
      exact ⟨t, rfl, rfl⟩
  obtain ⟨t, -, rfl⟩ := hread
  have htemplate : (t.output o file).template = t := rfl
  have hblock : o.blockNameFor file = defaultBlockName file := by
    rw [Options.blockNameFor, hoption]
    rfl
  have hcss : (t.output o file).css =
      (t.scopedTo (defaultBlockName file)).styleText o.cssVars := by
    have hempty : (defaultBlockName file).isEmpty = false := by simpa using hname
    change t.stylesFor o file = _
    rw [Template.stylesFor, hblock, hempty]
    rfl
  rw [htemplate, hcss]
  constructor
  · intro s hs
    refine Template.emittedIn_styleText ?_ o.cssVars
    rw [Template.selectors_scopedTo]
    exact List.mem_map_of_mem hs
  · refine ⟨t.codeFor o file, rfl, fun b hb e he hclass => ?_⟩
    have hmarked : (e.classes.isEmpty && !t.isBareTag e.name) = false := by
      rcases hclass with hne | hbare
      · rw [List.isEmpty_eq_false_iff.mpr hne, Bool.false_and]
      · rw [hbare, Bool.not_true, Bool.and_false]
    obtain ⟨key, hkey⟩ := b.node_mem_parts (t.scope (defaultBlockName file)) he
    refine ⟨key, Template.mem_parts_codeFor hb ?_, Element.isScopedNode_node hname hplain key hmarked⟩
    rw [hblock]
    exact hkey

theorem cards_scope_class : ∃ out, compile "lib/cards.mft" cardsSource {} = .ok out ∧
    ({} : Options).blockName = "" ∧ defaultBlockName "lib/cards.mft" = "cards" ∧
    (out.template.markupBlocks.flatMap (Statement.elementsOf ·.body)).map
      (fun e => (e.name, e.classes.length, out.template.isBareTag e.name)) =
        [("div", 2, false), ("p", 0, true)] ∧
    (∀ s ∈ out.template.selectors,
      EmittedIn out.css (s.scopedTo (defaultBlockName "lib/cards.mft")).text) ∧
    ∃ code, out.js = Script.Code.text 0 code ∧
      ∀ b ∈ out.template.markupBlocks, ∀ e ∈ Statement.elementsOf b.body,
        e.classes ≠ [] ∨ out.template.isBareTag e.name = true →
        ∃ key, e.node (out.template.scope (defaultBlockName "lib/cards.mft")) key ∈ code.parts ∧
          (e.node (out.template.scope (defaultBlockName "lib/cards.mft"))
            key).classValue?.isSome = true ∧
          out.template.isScopedNode (defaultBlockName "lib/cards.mft")
            (e.node (out.template.scope (defaultBlockName "lib/cards.mft")) key) = true := by
  have hcheck : ((compile "lib/cards.mft" cardsSource {}).toOption.any fun out =>
      (out.template.markupBlocks.flatMap (Statement.elementsOf ·.body)).map
        (fun e => (e.name, e.classes.length, out.template.isBareTag e.name)) =
          [("div", 2, false), ("p", 0, true)]) = true := by
    decide +kernel
  have hname : defaultBlockName "lib/cards.mft" = "cards" := by decide +kernel
  obtain ⟨out, hout, helements⟩ := exists_of_toOption hcheck
  have hplain : ("cards".toList.all fun c => c ≠ '.' ∧ c ≠ ':' ∧ c ≠ ' ') = true := by decide
  refine ⟨out, hout, rfl, hname, of_decide_eq_true helements,
    compile_scope_class hout rfl (by rw [hname]; decide) fun c hc => ?_⟩
  rw [hname] at hc
  exact of_decide_eq_true (List.all_eq_true.mp hplain c hc)

/-- An element whose class value does not show all that scoping adds to the selectors. -/
def Output.HasUnscoped (file : String) (out : Output) (among : Element → Bool) : Prop :=
  ∃ b ∈ out.template.markupBlocks, ∃ e ∈ Statement.elementsOf b.body, among e = true ∧ ∃ key,
    e.node (out.template.scope (defaultBlockName file)) key ∈
      (out.template.codeFor {} file).parts ∧
    (e.node (out.template.scope (defaultBlockName file)) key).classValue?.isSome = true ∧
    out.template.isScopedNode (defaultBlockName file)
      (e.node (out.template.scope (defaultBlockName file)) key) = false

theorem exists_hasUnscoped {source : String} {among : Element → Bool}
    (h : ((compile file source {}).toOption.any fun out =>
      out.template.markupBlocks.any fun b => (Statement.elementsOf b.body).any fun e => among e &&
        ((e.node (out.template.scope (defaultBlockName file)) none).classValue?.isSome &&
          !out.template.isScopedNode (defaultBlockName file)
            (e.node (out.template.scope (defaultBlockName file)) none))) = true) :
    ∃ out, compile file source {} = .ok out ∧ out.HasUnscoped file among := by
  obtain ⟨out, hout, hfound⟩ := exists_of_toOption h
  obtain ⟨b, hb, hfound⟩ := any_eq_true.mp hfound
  obtain ⟨e, he, hfound⟩ := any_eq_true.mp hfound
  obtain ⟨hamong, hfound⟩ := Bool.and_eq_true_iff.mp hfound
  obtain ⟨hsome, hscoped⟩ := Bool.and_eq_true_iff.mp hfound
  obtain ⟨key, hkey⟩ := b.node_mem_parts (out.template.scope (defaultBlockName file)) he
  -- The class value is the same for every key.
  rw [Bool.not_eq_true', Template.isScopedNode, Element.classValue?_node] at hscoped
  rw [Element.classValue?_node] at hsome
  refine ⟨out, hout, b, hb, e, he, hamong, key, Template.mem_parts_codeFor hb hkey, ?_, ?_⟩
  · rw [Element.classValue?_node]
    exact hsome
  · rw [Template.isScopedNode, Element.classValue?_node]
    exact hscoped

/-- An element that has its classes only by an attribute does not get the class of the block. If the
name of the block has a dot, a colon or a space in it, selectors and class values show it as
different names, also for elements with a class. -/
theorem class_attribute_not_scoped :
    (∃ out, compile "page.mft"
        "css:\n  .t\n    color: red\nview:\n  p[class=\"t\"]\n" {} = .ok out ∧
      out.HasUnscoped "page.mft" (·.classes.isEmpty)) ∧
    ∀ file ∈ ["a.b.mft", "a:b.mft", "a b.mft"], ∃ out, compile file
        "css:\n  .t\n    color: red\nview:\n  p.t\n" {} = .ok out ∧
      out.HasUnscoped file (!·.classes.isEmpty) := by
  constructor
  · exact exists_hasUnscoped (by decide +kernel)
  · intro file hfile
    simp only [List.mem_cons, List.not_mem_nil, or_false] at hfile
    rcases hfile with rfl | rfl | rfl <;> exact exists_hasUnscoped (by decide +kernel)

end Stencil
