import Stencil.Compile
import Stencil.Proofs.Markup.Bindings

/-!
# Code without gaps

The code of a template has no place that was left empty: only a statement that gives a node is asked
for one, and a body that stands for its only node has one.
-/
namespace Stencil

open Script (itemsGap? bodyGap?)
open List Fragment

theorem Script.itemsGap?_eq_none {xs : List Script.Expr} :
    itemsGap? xs = none ↔ ∀ x ∈ xs, x.gap? = none := by
  induction xs with
  | nil => simp [itemsGap?]
  | cons x xs ih => rw [itemsGap?, Option.or_eq_none_iff, ih, forall_mem_cons]

theorem Script.Expr.gap?_madeWith {vars : List Script.Stmt} (hvars : bodyGap? vars = none)
    {object : Script.Expr} (hobject : object.gap? = none) : (madeWith vars object).gap? = none := by
  unfold madeWith
  split
  · exact hobject
  · exact bodyGap?_eq_none.mpr (forall_mem_append.mpr
      ⟨bodyGap?_eq_none.mp hvars, forall_mem_singleton.mpr hobject⟩)

/-! ## Nodes -/

mutual

theorem Statement.gap?_node (scope : BlockScope) {key : Option Script.Expr} (hkey : IsPlainKey key)
    (s : Statement) (hs : s.isControl = false) : (s.node scope key).gap? = none := by
  cases s with
  | text _ segments => exact (isPlain_concatenation (isPlain_lowerSegments segments)).2
  | output _ value => exact value.gap?_lower
  | element p name classes attributes body =>
    obtain ⟨properties, heq, -, hgap⟩ :=
      Statement.node_element scope hkey p name classes attributes body
    rw [heq]
    refine Script.Expr.gap?_madeWith (Statement.bodyGap?_bodyVars body) ?_
    rw [Script.Expr.gap?, hgap, itemsGap?_bodyNodes scope _ hkey 0 body]
  | choice _ branches otherwise =>
    cases otherwise with
    | none => exact gap?_choiceNode scope hkey 0 rfl branches
    | some body =>
      have hbranch := hkey.branchKey branches.length
      exact gap?_choiceNode scope hkey 0 ((assemble_eq scope hbranch body).2.trans
        (itemsGap?_bodyNodes scope _ hbranch 0 body)) branches
  | loop _ name items body =>
    have hitem := hkey.itemKey name
    have hbody := (assemble_eq scope hitem body).2.trans
      (itemsGap?_bodyNodes scope _ hitem 0 body)
    simp [Statement.node, Script.Expr.gap?, Script.Stmt.gap?, itemsGap?, bodyGap?,
      items.gap?_lower, hbody]
  | store _ _ _ | binding _ _ _ | link _ _ => cases hs

theorem itemsGap?_bodyNodes (scope : BlockScope) (single : Bool) {key : Option Script.Expr}
    (hkey : IsPlainKey key) (i : Nat) (body : List Statement) :
    itemsGap? (bodyNodes scope single key i body) = none := by
  match body with
  | [] => rfl
  | s :: rest =>
    rw [bodyNodes]
    split
    · exact itemsGap?_bodyNodes scope single hkey i rest
    · next hs =>
      exact Option.or_eq_none_iff.mpr
        ⟨s.gap?_node scope (hkey.childKey single i) (Bool.eq_false_iff.mpr hs),
          itemsGap?_bodyNodes scope single hkey (i + 1) rest⟩

theorem gap?_choiceNode (scope : BlockScope) {key : Option Script.Expr} (hkey : IsPlainKey key)
    (i : Nat) {last : Script.Expr} (hlast : last.gap? = none)
    (branches : List (Expr × List Statement)) :
    (choiceNode scope key i last branches).gap? = none := by
  match branches with
  | [] => exact hlast
  | (condition, body) :: rest =>
    have hbranch := hkey.branchKey i
    have hbody := (assemble_eq scope hbranch body).2.trans
      (itemsGap?_bodyNodes scope _ hbranch 0 body)
    have hrest := gap?_choiceNode scope hkey (i + 1) hlast rest
    simp [choiceNode, Script.Expr.gap?, condition.gap?_lower, hbody, hrest]

end

/-! ## Templates -/

theorem MarkupBlock.gap?_lower (scope : BlockScope) (b : MarkupBlock) : (b.lower scope).gap? = none := by
  have hkey := b.isPlainKey_root scope
  refine Script.bodyGap?_eq_none.mpr (forall_mem_append.mpr ⟨fun s hs => ?_, ?_⟩)
  · obtain ⟨statement, -, hbinding⟩ := mem_filterMap.mp hs
    cases statement <;> cases hbinding
    exact Expr.gap?_lower _
  · exact forall_mem_singleton.mpr ((assemble_eq scope hkey b.body).2.trans
      (itemsGap?_bodyNodes scope _ hkey 0 b.body))

namespace Imports

theorem gap?_add {i : Imports} (h : ∀ s ∈ i.locals, s.gap? = none) (b : Block) :
    ∀ s ∈ (i.add b).locals, s.gap? = none := by
  have hnames : ∀ (param : String) (names : List ImportName),
      ∀ s ∈ names.map fun n => (.var n.localName (.attribute (.name param) n.name) : Script.Stmt),
        s.gap? = none := by
    intro param names s hs
    obtain ⟨n, -, rfl⟩ := mem_map.mp hs
    rfl
  cases b with
  | style _ | markup _ | importModule _ _ _ => exact h
  | importNames names source _ =>
    unfold add
    dsimp only
    split
    · exact forall_mem_append.mpr ⟨h, hnames _ names⟩
    · exact forall_mem_append.mpr ⟨h, hnames _ names⟩

theorem gap?_ofTemplate (t : Template) : ∀ s ∈ (ofTemplate t).locals, s.gap? = none := by
  have hfold : ∀ (blocks : List Block) (i : Imports), (∀ s ∈ i.locals, s.gap? = none) →
      ∀ s ∈ (blocks.foldl add i).locals, s.gap? = none := by
    intro blocks
    induction blocks with
    | nil => exact fun i h => h
    | cons b blocks ih => exact fun i h => ih _ (gap?_add h b)
  exact hfold t.blocks {} (by simp)

end Imports

namespace Script.Code

variable {code : Code}

theorem gap?_asModule (h : code.gap? = none) (t : Template) (name : String) :
    (code.asModule t name).gap? = none := by
  have hmodules : ∀ modules : List String, itemsGap? (modules.map Expr.string) = none := by
    intro modules
    refine itemsGap?_eq_none.mpr fun x hx => ?_
    obtain ⟨source, -, rfl⟩ := mem_map.mp hx
    rfl
  have hbody : bodyGap? ((Imports.ofTemplate t).locals ++ code ++ t.markupBlocks.map exportStmt) =
      none := by
    refine bodyGap?_eq_none.mpr (forall_mem_append.mpr
      ⟨forall_mem_append.mpr ⟨Imports.gap?_ofTemplate t, bodyGap?_eq_none.mp h⟩, ?_⟩)
    intro s hs
    obtain ⟨b, -, rfl⟩ := mem_map.mp hs
    rfl
  refine bodyGap?_eq_none.mpr (forall_mem_singleton.mpr ?_)
  refine itemsGap?_eq_none.mpr (forall_mem_append.mpr ⟨?_, ?_⟩)
  · split
    · simp
    · simp [Expr.gap?]
  · refine forall_mem_cons.mpr ⟨hmodules _, forall_mem_singleton.mpr hbody⟩

theorem gap?_withStyle (h : code.gap? = none) (css : String) :
    (withStyle css code).gap? = none := by
  refine bodyGap?_eq_none.mpr (forall_mem_append.mpr ⟨?_, bodyGap?_eq_none.mp h⟩)
  simp [Stmt.gap?, Expr.gap?, itemsGap?, Expr.dot]

end Script.Code

/-- The code of a template has no gap, whatever the options are. -/
theorem Template.gap?_codeFor (o : Options) (file : String) (t : Template) :
    (t.codeFor o file).gap? = none := by
  have hlower : (t.lower ⟨o.blockNameFor file, t.bareElements⟩).gap? = none := by
    refine Script.bodyGap?_eq_none.mpr fun s hs => ?_
    obtain ⟨b, -, rfl⟩ := mem_map.mp hs
    exact b.gap?_lower _
  unfold codeFor
  extract_lets code styled
  have hstyled : styled.gap? = none := by
    unfold styled
    split
    · exact Script.Code.gap?_withStyle hlower _
    · exact hlower
  split
  · exact Script.Code.gap?_asModule hstyled t _
  · exact hstyled

end Stencil
