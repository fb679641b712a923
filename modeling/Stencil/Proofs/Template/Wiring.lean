import Mathlib.Data.List.Induction
import Mathlib.Data.List.Lookmap
import Mathlib.Data.List.Nodup
import Stencil.Proofs.Markup.Contribution

/-!
# The wiring of a module

The definition of a module lists the modules to load and, beside them, the parameters that they are
passed as. An import of a module by name has a parameter of that name. Imports of single names load
their source once, where the first of them stands, and the parameter is made up: `_mod_0`, `_mod_1`
and so on in the order of the sources.
-/
namespace Stencil

open List

namespace Block

/-- The source that a block imports single names from. -/
def namedSource? : Block → Option String
  | .importNames _ source _ => some source
  | _ => none

/-- The module that a block loads and its parameter, where `param` is for the sources of names. -/
def wire? (param : String → String) : Block → Option (String × String)
  | .importModule name source _ => some (source, name)
  | .importNames _ source _ => some (source, param source)
  | _ => none

/-- The single names that a block imports, each with its source. -/
def imported : Block → List (String × ImportName)
  | .importNames names source _ => names.map (source, ·)
  | _ => []

/-- A later import of names from the same source. -/
def repeats (b b' : Block) : Bool := b.namedSource?.isSome && b'.namedSource? == b.namedSource?

/-- Of the imports of names from one source the first, and all other blocks. -/
def firsts : List Block → List Block
  | [] => []
  | b :: rest => b :: (firsts rest).filter (!b.repeats ·)

/-- The sources that names are imported from, each once. -/
def namedSources (blocks : List Block) : List String := (firsts blocks).filterMap namedSource?

/-- The parameter for a source of names. -/
def moduleParam (blocks : List Block) (source : String) : String :=
  s!"_mod_{(namedSources blocks).idxOf source}"

/-- The modules to load with their parameters, in the order of the blocks. -/
def wires (param : String → String) (blocks : List Block) : List (String × String) :=
  (firsts blocks).filterMap (wire? param)

/-! ## One more block -/

variable {b : Block} {blocks : List Block} {s : String}

theorem mem_namedSources_cons :
    s ∈ namedSources (b :: blocks) ↔ b.namedSource? = some s ∨ s ∈ namedSources blocks := by
  simp only [namedSources, firsts, mem_filterMap, mem_cons, mem_filter, repeats]
  constructor
  · rintro ⟨b', rfl | ⟨hb', -⟩, hs⟩
    · exact .inl hs
    · exact .inr ⟨b', hb', hs⟩
  · rintro (hs | ⟨b', hb', hs⟩)
    · exact ⟨b, .inl rfl, hs⟩
    · by_cases hb : b.namedSource? = some s
      · exact ⟨b, .inl rfl, hb⟩
      · refine ⟨b', .inr ⟨hb', ?_⟩, hs⟩
        rw [hs, Bool.not_eq_true', Bool.and_eq_false_iff, beq_eq_false_iff_ne]
        exact .inr (Ne.symm hb)

theorem firsts_concat (blocks : List Block) (b : Block) :
    firsts (blocks ++ [b]) =
      firsts blocks ++ if b.namedSource?.all (· ∉ namedSources blocks) then [b] else [] := by
  induction blocks with
  | nil => cases b.namedSource? <;> simp [firsts, namedSources]
  | cons c blocks ih =>
    rw [cons_append, firsts, ih, firsts, filter_append, cons_append]
    cases hb : b.namedSource? with
    | none => cases hc : c.namedSource? <;> simp [repeats, hb, hc]
    | some s =>
      simp only [Option.all_some, mem_namedSources_cons]
      by_cases hs : s ∈ namedSources blocks
      · simp [hs]
      · by_cases hc : c.namedSource? = some s
        · simp [hs, hc, repeats, hb]
        · simp [hs, hc, repeats, hb, Ne.symm hc]

theorem namedSources_concat (blocks : List Block) (b : Block) :
    namedSources (blocks ++ [b]) =
      namedSources blocks ++ b.namedSource?.toList.filter (· ∉ namedSources blocks) := by
  rw [namedSources, firsts_concat, filterMap_append, ← namedSources]
  congr 1
  cases hb : b.namedSource? with
  | none => simp [hb]
  | some s => by_cases hs : s ∈ namedSources blocks <;> simp [hb, hs]

theorem nodup_namedSources (blocks : List Block) : (namedSources blocks).Nodup := by
  induction blocks using reverseRecOn with
  | nil => exact nodup_nil
  | append_singleton blocks b ih =>
    rw [namedSources_concat]
    refine ih.append ?_ fun s hs hb => ?_
    · cases b.namedSource? with
      | none => exact nodup_nil
      | some s => exact (nodup_singleton s).filter _
    · exact of_decide_eq_true (mem_filter.mp hb).2 hs

theorem namedSources_prefix {all : List Block} (h : blocks <+: all) :
    namedSources blocks <+: namedSources all := by
  obtain ⟨later, rfl⟩ := h
  induction later using reverseRecOn with
  | nil => exact ⟨[], by rw [append_nil, append_nil]⟩
  | append_singleton later b ih =>
    rw [← append_assoc, namedSources_concat]
    exact ih.trans (prefix_append _ _)

theorem moduleParam_inj {s' : String} (h : moduleParam blocks s = moduleParam blocks s')
    (hs : s ∈ namedSources blocks) : s = s' :=
  (idxOf_inj hs).mp (numbered_injective "_mod_" h)

end Block

open Block

namespace Imports

/-- The imports of blocks, where `param` is for the sources of names. -/
def wired (param : String → String) (blocks : List Block) : Imports where
  modules := (wires param blocks).map (·.1)
  params := (wires param blocks).map (·.2)
  locals := (blocks.flatMap imported).map fun i =>
    .var i.2.localName (.attribute (.name (param i.1)) i.2.name)
  named := (namedSources blocks).map fun s => (s, param s)

variable {param : String → String} {blocks : List Block}

/-- The parameter for one more source has the number of the sources before it. -/
theorem add_wired (b : Block)
    (hparam : ∀ s ∈ b.namedSource?, s ∉ namedSources blocks →
      s!"_mod_{(namedSources blocks).length}" = param s) :
    (wired param blocks).add b = wired param (blocks ++ [b]) := by
  cases b with
  | style | markup | importModule =>
    simp [add, load, wired, wires, firsts_concat, namedSources_concat, namedSource?, wire?, imported]
  | importNames names source _ =>
    by_cases hsource : source ∈ namedSources blocks
    · have hlookup : (wired param blocks).named.lookup source = some (param source) :=
        lookup_graph param hsource
      rw [add, hlookup]
      simp [bindNames, wired, wires, firsts_concat, namedSources_concat, namedSource?, hsource,
        imported]
    · have hlookup : (wired param blocks).named.lookup source = none := by
        rw [lookup_eq_none_iff]
        intro p hp
        obtain ⟨s, hs, rfl⟩ := mem_map.mp hp
        exact bne_iff_ne.mpr fun heq => hsource (heq ▸ hs)
      have hfresh : s!"_mod_{(wired param blocks).named.length}" = param source := by
        rw [wired, length_map]
        exact hparam source rfl hsource
      rw [add, hlookup]
      dsimp only
      rw [hfresh]
      simp [bindNames, load, wired, wires, firsts_concat, namedSources_concat, namedSource?, hsource,
        imported, wire?]

theorem foldl_add {all : List Block} (h : blocks <+: all) :
    blocks.foldl add {} = wired (moduleParam all) blocks := by
  induction blocks using reverseRecOn with
  | nil => rfl
  | append_singleton blocks b ih =>
    rw [foldl_append, ih ((prefix_append _ _).trans h), foldl_cons, foldl_nil]
    refine add_wired b fun s hs hfresh => ?_
    obtain ⟨later, hlater⟩ := namedSources_prefix h
    rw [moduleParam, ← hlater, namedSources_concat, Option.mem_def.mp hs]
    simp [hfresh, idxOf_append]

end Imports

namespace Template

def wires (t : Template) : List (String × String) := Block.wires (moduleParam t.blocks) t.blocks

end Template

/-- The lists of a module definition go side by side: after `require` and `exports` come the modules
to load and their parameters. Each single name is bound once, to the attribute of that name of the
parameter for its source; then comes the code, and one export for each markup block. The sources of
single names are among the modules to load, and no two of them have the same parameter. -/
theorem Script.Code.asModule_wires (t : Template) (name : String) (code : Code) :
    code.asModule t name = [.expr (.call (.name "define")
      ((if name.isEmpty then [] else [.string name]) ++
        [.list (("require" :: "exports" :: t.wires.map (·.1)).map .string),
          .function "" (("require" :: "exports" :: t.wires.map (·.2)).map (·, none))
            ((t.blocks.flatMap imported).map (fun i =>
                .var i.2.localName (.attribute (.name (moduleParam t.blocks i.1)) i.2.name)) ++
              code ++ t.markupBlocks.map fun b =>
                .expr (.assign (.name "exports") b.name (.name b.name)))]))] ∧
      ((namedSources t.blocks).map fun s => (s, moduleParam t.blocks s)).Sublist t.wires ∧
      ((namedSources t.blocks).map (moduleParam t.blocks)).Nodup := by
  refine ⟨?_, ?_, ?_⟩
  · rw [asModule, Imports.ofTemplate, Imports.foldl_add (List.prefix_refl _)]
    rfl
  · rw [namedSources, List.map_filterMap, Template.wires, Block.wires]
    induction firsts t.blocks with
    | nil => exact .slnil
    | cons b blocks ih =>
      cases b with
      | importNames => exact ih.cons_cons _
      | importModule => exact ih.cons _
      | style | markup => exact ih
  · exact (nodup_namedSources t.blocks).map_on fun s hs s' _ h => moduleParam_inj h hs

end Stencil
