import Mathlib.Data.List.Enum
import Stencil.Proofs.Command.Agreement
import Stencil.Proofs.Files.Siblings

/-!
# The order in which inputs are built plays no part

What a build does with an input is settled before anything is written: its outputs go beside it, and
what other inputs write changes neither its text nor the directories around it. So inputs that are
different files may be worked off in any order. Every order ends with the same files, the same code
and the same messages. Templates are never written, and nothing is written but the outputs of
inputs that compile.
-/
namespace Stencil.Command

open List

/-! ## Inputs are templates -/

theorem isTemplate_append (base : String) : isTemplate (base ++ templateExtension) := by
  rw [isTemplate, Path.hasSuffix, isSuffixOf_iff_suffix, String.toList_append]
  exact suffix_append _ _

theorem resolve_append {last : String} (hlast : ∀ dots ∈ ["", ".", ".."], last ≠ dots)
    (rooted : Bool) (before parts : List String) :
    Path.resolve rooted before (parts ++ [last]) = Path.resolve rooted before parts ++ [last] := by
  induction parts generalizing before with
  | nil => simp [Path.resolve, hlast]
  | cons part parts ih =>
    cases before with
    | nil =>
      simp only [cons_append, Path.resolve]
      split_ifs <;> exact ih _
    | cons last before =>
      simp only [cons_append, Path.resolve]
      split_ifs <;> exact ih _

theorem intercalate_concat (parts : List String) (last : String) :
    ∃ front, "/".intercalate (parts ++ [last]) = front ++ last := by
  induction parts with
  | nil => exact ⟨"", by rw [nil_append, String.intercalate_singleton, String.empty_append]⟩
  | cons part parts ih =>
    obtain ⟨front, hfront⟩ := ih
    refine ⟨part ++ "/" ++ front, ?_⟩
    have hcons : ∃ first rest, parts ++ [last] = first :: rest := by
      cases parts <;> exact ⟨_, _, rfl⟩
    obtain ⟨first, rest, hrest⟩ := hcons
    rw [cons_append, hrest, String.intercalate_cons_cons, ← hrest, hfront, String.append_assoc,
      String.append_assoc, String.append_assoc]

variable {path input : String} {fs : FileSet} {files paths : List String} {c : BuildConfig}

/-- The shortest path to a template ends like it. -/
theorem isTemplate_clean (h : isTemplate path) : isTemplate (Path.clean path) := by
  obtain ⟨base, rfl, -⟩ := eq_append_of_isTemplate h
  have hmft : templateExtension ∈ templateExtension :: outputEndings := mem_cons_self
  obtain ⟨before, stem, -, hsplit⟩ := Text.split_append_of_not_mem '/' base
  have hname := append_ending_ne hmft stem
  obtain ⟨front, hfront⟩ := intercalate_concat
    (Path.resolve (Path.isRooted (base ++ templateExtension)) [] before) (stem ++ templateExtension)
  rw [← String.append_assoc] at hfront
  rw [Path.clean, hsplit _ (slash_not_mem_ending hmft), resolve_append hname, hfront]
  split
  · rw [← String.append_assoc]
    exact isTemplate_append _
  split
  · next hempty =>
    rw [String.isEmpty_iff] at hempty
    exact absurd hempty (append_ending_ne hmft (front ++ stem) _ mem_cons_self)
  · exact isTemplate_append _

theorem isTemplate_join {name : String} (h : isTemplate name) (directory : String) :
    isTemplate (Path.join directory [name]) := by
  obtain ⟨base, rfl, -⟩ := eq_append_of_isTemplate h
  refine isTemplate_clean ?_
  rw [String.intercalate_cons_cons, String.intercalate_singleton, ← String.append_assoc]
  exact isTemplate_append _

theorem isTemplate_of_mem_inputsAt (h : inputsAt fs path = .ok files) (hinput : input ∈ files) :
    isTemplate input := by
  rw [inputsAt] at h
  split at h <;> split at h
  · cases h
  · cases h
    exact (mem_filter.mp hinput).2
  · cases h
    exact (mem_filter.mp hinput).2
  · cases h
  · cases h
    exact (mem_filter.mp hinput).2
  · cases h
    obtain ⟨name, hname, rfl⟩ := mem_map.mp hinput
    exact isTemplate_join (mem_filter.mp hname).2 _

theorem isTemplate_of_mem_inputs (h : inputs fs paths = .ok files) (hinput : input ∈ files) :
    isTemplate input := by
  induction paths generalizing files with
  | nil =>
    cases h
    cases hinput
  | cons path paths ih =>
    rw [inputs] at h
    cases hfirst : inputsAt fs path with
    | error fault => rw [hfirst] at h; cases h
    | ok first =>
      cases hrest : inputs fs paths with
      | error fault => rw [hfirst, hrest] at h; cases h
      | ok rest =>
        rw [hfirst, hrest] at h
        cases h
        rcases mem_append.mp hinput with hmem | hmem
        · exact isTemplate_of_mem_inputsAt hfirst hmem
        · exact ih hrest hmem

theorem isTemplate_of_mem_buildInputs (h : buildInputs c fs paths = .ok files) :
    ∀ input ∈ files, isTemplate input := by
  intro input hinput
  rw [buildInputs, someInputs] at h
  cases hfiles : inputs fs paths with
  | error fault => rw [hfiles] at h; cases h
  | ok found =>
    have heq : found = files := by
      simp only [hfiles, bind, Except.bind, pure, Except.pure, throw, throwThe,
        MonadExceptOf.throw] at h
      split_ifs at h
      dsimp only at h
      split_ifs at h
      exact Except.ok.inj h
    exact isTemplate_of_mem_inputs (heq ▸ hfiles) hinput

/-! ## Where outputs go -/

/-- The output of a template, by the places of both. -/
def OutputAt (ending : String) (place output : Location) : Prop :=
  ∃ directory stem, place = directory ++ [stem ++ templateExtension] ∧
    output = directory ++ [stem ++ ending]

/-- A place with the name of a template. -/
def isTemplateAt (place : Location) : Bool := place.getLast?.any isTemplate

section Outputs

variable {first second ending : String} {place other output : Location}

/-- An output determines its template. -/
theorem OutputAt.unique (hfirst : first ∈ outputEndings) (hsecond : second ∈ outputEndings)
    (h : OutputAt first place output) (h' : OutputAt second other output) :
    place = other ∧ first = second := by
  obtain ⟨directory, stem, rfl, rfl⟩ := h
  obtain ⟨directory', stem', rfl, heq⟩ := h'
  obtain ⟨rfl, hname⟩ := append_inj' heq rfl
  obtain ⟨rfl, rfl⟩ := append_ending_inj (mem_cons_of_mem _ hfirst)
    (mem_cons_of_mem _ hsecond) (singleton_inj.mp hname)
  exact ⟨rfl, rfl⟩

theorem OutputAt.not_isTemplateAt (hending : ending ∈ outputEndings)
    (h : OutputAt ending place output) : isTemplateAt output = false := by
  obtain ⟨directory, stem, -, rfl⟩ := h
  rw [isTemplateAt, getLast?_concat, Option.any_some, Bool.eq_false_iff]
  intro htemplate
  obtain ⟨base, hbase, -⟩ := eq_append_of_isTemplate htemplate
  obtain ⟨-, rfl⟩ := append_ending_inj (mem_cons_of_mem _ hending) mem_cons_self hbase
  exact absurd hending (by decide)

end Outputs

section Locating

variable {fs fs' : FileSet} {base ending : String} {place output : Location}

theorem outputAt_of_locateFile (hending : ending ∈ outputEndings)
    (hplace : fs.locate (base ++ templateExtension) = .ok place)
    (houtput : fs.locateFile (base ++ ending) = .ok output) :
    OutputAt ending place output ∧ fs.Takes output := by
  obtain ⟨directory, stem, rfl, hdirectory, houtputs⟩ := locateFile_output hplace
  rw [houtputs ending hending, fileAt] at houtput
  split at houtput
  · cases houtput
  · next hfree =>
    cases houtput
    exact ⟨⟨directory, stem, rfl, rfl⟩, by rw [dropLast_concat]; exact hdirectory, hfree⟩

/-- Where an output goes depends on directories only. -/
theorem locateFile_output_eq (hsame : fs.SameDirectories fs') (hending : ending ∈ outputEndings)
    (hplace : fs.locate (base ++ templateExtension) = .ok place) :
    fs'.locateFile (base ++ ending) = fs.locateFile (base ++ ending) := by
  obtain ⟨directory, stem, heq, -, houtputs⟩ := locateFile_output hplace
  obtain ⟨directory', stem', heq', -, houtputs'⟩ := locateFile_output (hsame.locate hplace)
  obtain ⟨rfl, hname⟩ := append_inj' (heq.symm.trans heq') rfl
  obtain ⟨rfl, -⟩ := append_ending_inj mem_cons_self mem_cons_self
    (singleton_inj.mp hname)
  rw [houtputs ending hending, houtputs' ending hending, fileAt, fileAt]
  simp only [hsame _]

end Locating

/-! ## What a build does with one input -/

/-- Neither are outputs named nor progress messages asked for. -/
structure BuildConfig.IsPlain (c : BuildConfig) : Prop where
  js : c.jsPath = ""
  css : c.cssPath = ""
  quiet : c.verbose = false

/-- What comes of writing outputs, and what is written. -/
def planOutputs (fs : FileSet) (jsPath cssPath : String) (out : Output) :
    Except CommandFault Output × List (Location × ByteArray) :=
  match fs.locateFile jsPath with
  | .error e => (.error (.writing ⟨"open", jsPath, e⟩), [])
  | .ok js =>
    if out.css.isEmpty then (.ok out, [(js, out.js.toUTF8)])
    else match fs.locateFile cssPath with
      | .error e => (.error (.writing ⟨"open", cssPath, e⟩), [(js, out.js.toUTF8)])
      | .ok css => (.ok out, [(js, out.js.toUTF8), (css, out.css)])

/-- What comes of an input, and what is written for it. -/
def plan (c : BuildConfig) (fs : FileSet) (path : String) :
    Except CommandFault Output × List (Location × ByteArray) :=
  match source fs path with
  | .error fault => (.error fault, [])
  | .ok text =>
    match compile path text c.options with
    | .error fault => (.error (.source fault), [])
    | .ok out =>
      if c.toStdout then (.ok out, [])
      else planOutputs fs (outputPaths path).1 (outputPaths path).2 out

theorem Journal.log_of_none {j : Journal} (hj : j.target = none) (message : String)
    (fs : FileSet) : j.log message fs = fs := by
  rw [Journal.log, hj]

section OneInput

variable {c : BuildConfig} {j : Journal} {fs : FileSet} {path jsPath cssPath : String}
  {place : Location} {out : Output} {w : Location × ByteArray}

theorem writeOutputs_eq_plan (hcss : c.cssPath = "")
    (hstable : ∀ js, fs.locateFile jsPath = .ok js →
      (fs.put js out.js.toUTF8).locateFile cssPath = fs.locateFile cssPath) :
    writeOutputs c jsPath cssPath out fs =
      ((planOutputs fs jsPath cssPath out).1, fs.putAll (planOutputs fs jsPath cssPath out).2) := by
  rw [writeOutputs, planOutputs, FileSet.write, hcss]
  cases hjs : fs.locateFile jsPath with
  | error e => rfl
  | ok js =>
    dsimp only
    cases out.css.isEmpty with
    | true => rfl
    | false =>
      rw [FileSet.write, hstable js hjs]
      cases fs.locateFile cssPath <;> rfl

/-- An input is built as planned. -/
theorem buildFile_eq_plan (hplain : c.IsPlain) (hj : j.target = none)
    (hpath : isTemplate path) (hplace : fs.locate path = .ok place) :
    buildFile c j fs path =
      { result := (plan c fs path).1, files := fs.putAll (plan c fs path).2 } := by
  obtain ⟨base, rfl, hpaths⟩ := eq_append_of_isTemplate hpath
  rw [buildFile, plan, hpaths]
  cases source fs (base ++ templateExtension) with
  | error fault => rfl
  | ok text =>
    simp only [Journal.logAll_of_none hj, Journal.log_of_none hj]
    cases compile (base ++ templateExtension) text c.options with
    | error fault => rfl
    | ok out =>
      dsimp only
      cases c.toStdout with
      | true => rfl
      | false =>
        have hstable : ∀ js, fs.locateFile (base ++ ".js") = .ok js →
            (fs.put js out.js.toUTF8).locateFile (base ++ ".css") =
              fs.locateFile (base ++ ".css") := by
          intro js hjs
          obtain ⟨-, htakes⟩ := outputAt_of_locateFile (by decide) hplace hjs
          exact locateFile_output_eq (FileSet.sameDirectories_put htakes _) (by decide) hplace
        rw [hplain.js, hplain.css, hplain.quiet]
        exact congrArg (fun w => FileBuild.mk w.1 "" w.2) (writeOutputs_eq_plan hplain.css hstable)

theorem mem_planOutputs (hw : w ∈ (planOutputs fs jsPath cssPath out).2) :
    fs.locateFile jsPath = .ok w.1 ∨
      out.css.isEmpty = false ∧ fs.locateFile cssPath = .ok w.1 := by
  rw [planOutputs] at hw
  cases hjs : fs.locateFile jsPath with
  | error e => rw [hjs] at hw; cases hw
  | ok js =>
    rw [hjs] at hw
    dsimp only at hw
    cases hcss : out.css.isEmpty with
    | true =>
      rw [hcss] at hw
      rw [mem_singleton.mp hw]
      exact .inl rfl
    | false =>
      rw [hcss] at hw
      cases hplace : fs.locateFile cssPath with
      | error e =>
        rw [hplace] at hw
        rw [mem_singleton.mp hw]
        exact .inl rfl
      | ok css =>
        rw [hplace] at hw
        rcases mem_pair.mp hw with rfl | rfl
        · exact .inl rfl
        · exact .inr ⟨rfl, rfl⟩

theorem nodup_planOutputs
    (hne : ∀ js css, fs.locateFile jsPath = .ok js → fs.locateFile cssPath = .ok css → js ≠ css) :
    ((planOutputs fs jsPath cssPath out).2.map (·.1)).Nodup := by
  rw [planOutputs]
  cases hjs : fs.locateFile jsPath with
  | error e => exact nodup_nil
  | ok js =>
    dsimp only
    cases out.css.isEmpty with
    | true => exact nodup_singleton js
    | false =>
      cases hcss : fs.locateFile cssPath with
      | error e => exact nodup_singleton js
      | ok css => simpa using hne js css hjs hcss

/-- Something is written only for an input that compiles, and only its outputs. -/
theorem mem_plan (hw : w ∈ (plan c fs path).2) :
    ∃ text out, source fs path = .ok text ∧ compile path text c.options = .ok out ∧
      (fs.locateFile (outputPaths path).1 = .ok w.1 ∨
        out.css.isEmpty = false ∧ fs.locateFile (outputPaths path).2 = .ok w.1) := by
  rw [plan] at hw
  cases hsource : source fs path with
  | error fault => rw [hsource] at hw; cases hw
  | ok text =>
    rw [hsource] at hw
    dsimp only at hw
    cases hcompile : compile path text c.options with
    | error fault => rw [hcompile] at hw; cases hw
    | ok out =>
      rw [hcompile] at hw
      dsimp only at hw
      split at hw
      · cases hw
      · exact ⟨text, out, rfl, hcompile, mem_planOutputs hw⟩

section Placed

variable (hpath : isTemplate path) (hplace : fs.locate path = .ok place)
include hpath hplace

theorem outputAt_of_mem_plan {w : Location × ByteArray} (hw : w ∈ (plan c fs path).2) :
    fs.Takes w.1 ∧ ∃ ending ∈ outputEndings, OutputAt ending place w.1 := by
  obtain ⟨text, out, -, -, hw⟩ := mem_plan hw
  obtain ⟨base, rfl, hpaths⟩ := eq_append_of_isTemplate hpath
  rw [hpaths] at hw
  rcases hw with hjs | ⟨-, hcss⟩
  · obtain ⟨hat, htakes⟩ := outputAt_of_locateFile (by decide) hplace hjs
    exact ⟨htakes, ".js", by decide, hat⟩
  · obtain ⟨hat, htakes⟩ := outputAt_of_locateFile (by decide) hplace hcss
    exact ⟨htakes, ".css", by decide, hat⟩

theorem nodup_plan : ((plan c fs path).2.map (·.1)).Nodup := by
  obtain ⟨base, rfl, hpaths⟩ := eq_append_of_isTemplate hpath
  rw [plan, hpaths]
  cases source fs (base ++ templateExtension) with
  | error fault => exact nodup_nil
  | ok text =>
    dsimp only
    cases compile (base ++ templateExtension) text c.options with
    | error fault => exact nodup_nil
    | ok out =>
      dsimp only
      split
      · exact nodup_nil
      · refine nodup_planOutputs ?_
        rintro js css hjs hcss rfl
        have hjsAt := (outputAt_of_locateFile (by decide) hplace hjs).1
        have hcssAt := (outputAt_of_locateFile (by decide) hplace hcss).1
        exact absurd (hjsAt.unique (by decide) (by decide) hcssAt).2 (by decide)

end Placed

end OneInput

/-! ## What other inputs leave as it was -/

/-- A path that leads to a file. -/
def Denotes (fs : FileSet) (path : String) (place : Location) : Prop :=
  ∃ content, fs.look path = .ok (place, .file content)

/-- The directories and the templates are what they were. -/
structure Kept (fs fs' : FileSet) : Prop where
  directories : fs.SameDirectories fs'
  templates : ∀ place, isTemplateAt place = true →
    fs'.files.lookup place = fs.files.lookup place

section Keeping

variable {c : BuildConfig} {fs fs' : FileSet} {path : String} {place : Location}

theorem look_eq_file {content : ByteArray} :
    fs.look path = .ok (place, .file content) ↔
      fs.locate path = .ok place ∧ fs.files.lookup place = some content := by
  rw [FileSet.look]
  cases fs.locate path with
  | error e =>
    constructor
    · intro h
      cases h
    · rintro ⟨h, -⟩
      cases h
  | ok found =>
    simp only [bind, Except.bind, FileSet.node?]
    cases hlookup : fs.files.lookup found with
    | none =>
      constructor
      · intro h
        dsimp only at h
        split_ifs at h
        cases h
      · rintro ⟨hfound, hcontent⟩
        cases hfound
        rw [hlookup] at hcontent
        cases hcontent
    | some old =>
      constructor
      · intro h
        cases h
        exact ⟨rfl, hlookup⟩
      · rintro ⟨hfound, hcontent⟩
        cases hfound
        rw [hlookup] at hcontent
        cases hcontent
        rfl

theorem Denotes.locate (h : Denotes fs path place) : fs.locate path = .ok place := by
  obtain ⟨content, h⟩ := h
  exact (look_eq_file.mp h).1

theorem isTemplateAt_of_locate (hpath : isTemplate path)
    (hplace : fs.locate path = .ok place) : isTemplateAt place := by
  obtain ⟨base, rfl, -⟩ := eq_append_of_isTemplate hpath
  obtain ⟨directory, stem, rfl, -, -⟩ := locateFile_output hplace
  rw [isTemplateAt, getLast?_concat]
  exact isTemplate_append stem

namespace Kept

theorem refl (fs : FileSet) : Kept fs fs := ⟨.refl fs, fun _ _ => rfl⟩

/-- Outputs of an input are neither directories nor templates. -/
theorem putAll (h : Kept fs fs') (hpath : isTemplate path)
    (hplace : fs.locate path = .ok place) : Kept fs (fs'.putAll (plan c fs path).2) where
  directories := by
    refine h.directories.trans (FileSet.sameDirectories_putAll fun w hw => ?_)
    exact h.directories.takes (outputAt_of_mem_plan hpath hplace hw).1
  templates other hother := by
    rw [FileSet.lookup_putAll, h.templates other hother]
    rintro w hw rfl
    obtain ⟨-, ending, hending, hat⟩ := outputAt_of_mem_plan hpath hplace hw
    rw [hat.not_isTemplateAt hending] at hother
    cases hother

variable (h : Kept fs fs') (hpath : isTemplate path)
include h hpath

theorem look {content : ByteArray} (hlook : fs.look path = .ok (place, .file content)) :
    fs'.look path = .ok (place, .file content) := by
  obtain ⟨hplace, hcontent⟩ := look_eq_file.mp hlook
  refine look_eq_file.mpr ⟨h.directories.locate hplace, ?_⟩
  rw [h.templates place (isTemplateAt_of_locate hpath hplace), hcontent]

/-- The plan for an input stays. -/
theorem plan_eq (hdenotes : Denotes fs path place) : plan c fs' path = plan c fs path := by
  obtain ⟨content, hlook⟩ := hdenotes
  have hsource : source fs' path = source fs path := by
    rw [source, source, FileSet.read, FileSet.read, hlook, h.look hpath hlook]
  have hplace := (look_eq_file.mp hlook).1
  obtain ⟨base, rfl, hpaths⟩ := eq_append_of_isTemplate hpath
  have houtput : ∀ ending ∈ outputEndings,
      fs'.locateFile (base ++ ending) = fs.locateFile (base ++ ending) :=
    fun _ hending => locateFile_output_eq h.directories hending hplace
  have houtputs : ∀ out, planOutputs fs' (base ++ ".js") (base ++ ".css") out =
      planOutputs fs (base ++ ".js") (base ++ ".css") out := by
    intro out
    rw [planOutputs, planOutputs, houtput ".js" (by decide), houtput ".css" (by decide)]
  rw [plan, plan, hsource, hpaths]
  simp only [houtputs]

end Kept
end Keeping

/-! ## All inputs -/

/-- Paths that lead to files, no two of them to the same one. -/
structure DenoteApart (fs : FileSet) (paths : List String) : Prop where
  denotes : ∀ path ∈ paths, ∃ place, Denotes fs path place
  apart : paths.Pairwise fun path other => ∀ place, Denotes fs path place → ¬ Denotes fs other place

section AllInputs

variable {c : BuildConfig} {j : Journal} {fs fs' : FileSet} {paths : List String}

/-- What is written for inputs, one after the other. -/
def plans (c : BuildConfig) (fs : FileSet) (paths : List String) : List (Location × ByteArray) :=
  paths.flatMap fun path => (plan c fs path).2

/-- Each input is built as planned at the start, whatever was built before it. -/
theorem buildFiles_eq_plans (hplain : c.IsPlain) (hj : j.target = none)
    (hpaths : ∀ path ∈ paths, isTemplate path)
    (hdenotes : ∀ path ∈ paths, ∃ place, Denotes fs path place) (hkept : Kept fs fs') :
    (buildFiles c j fs' paths).1.map (·.result) = paths.map (fun path => (plan c fs path).1) ∧
      (buildFiles c j fs' paths).1.map (·.printed) = paths.map (fun _ => "") ∧
      (buildFiles c j fs' paths).2 = fs'.putAll (plans c fs paths) ∧
      Kept fs (fs'.putAll (plans c fs paths)) := by
  induction paths generalizing fs' with
  | nil => exact ⟨rfl, rfl, rfl, hkept⟩
  | cons path paths ih =>
    obtain ⟨hpath, hpaths⟩ := forall_mem_cons.mp hpaths
    obtain ⟨⟨place, hplace⟩, hdenotes⟩ := forall_mem_cons.mp hdenotes
    have hfirst := buildFile_eq_plan hplain hj hpath
      (hkept.directories.locate hplace.locate)
    rw [hkept.plan_eq hpath hplace] at hfirst
    obtain ⟨hresults, hprinted, hfiles, hkept⟩ :=
      ih hpaths hdenotes (hkept.putAll hpath hplace.locate)
    have hplans : fs'.putAll (plans c fs (path :: paths)) =
        (fs'.putAll (plan c fs path).2).putAll (plans c fs paths) := by
      rw [plans, plans, flatMap_cons, FileSet.putAll_append]
    rw [buildFiles, hfirst, hplans]
    exact ⟨congrArg (_ :: ·) hresults, congrArg (_ :: ·) hprinted, hfiles, hkept⟩

theorem nodup_plans (hpaths : ∀ path ∈ paths, isTemplate path)
    (hapart : DenoteApart fs paths) : ((plans c fs paths).map (·.1)).Nodup := by
  rw [plans, map_flatMap, nodup_flatMap]
  constructor
  · intro path hmem
    obtain ⟨place, hplace⟩ := hapart.denotes path hmem
    exact nodup_plan (hpaths path hmem) hplace.locate
  · refine hapart.apart.imp_of_mem fun {path other} hmem hmem' hne => ?_
    obtain ⟨place, hplace⟩ := hapart.denotes path hmem
    obtain ⟨place', hplace'⟩ := hapart.denotes other hmem'
    intro output houtput houtput'
    obtain ⟨w, hw, rfl⟩ := mem_map.mp houtput
    obtain ⟨w', hw', heq⟩ := mem_map.mp houtput'
    obtain ⟨-, ending, hending, hat⟩ := outputAt_of_mem_plan (hpaths path hmem) hplace.locate hw
    obtain ⟨-, ending', hending', hat'⟩ :=
      outputAt_of_mem_plan (hpaths other hmem') hplace'.locate hw'
    rw [heq] at hat'
    obtain ⟨rfl, -⟩ := hat.unique hending hending' hat'
    exact hne place hplace hplace'

/-- Inputs that are different files may be written for in any order. -/
theorem putAll_plans_perm {others : List String} (hperm : paths.Perm others)
    (hpaths : ∀ path ∈ paths, isTemplate path) (hapart : DenoteApart fs paths) :
    fs.putAll (plans c fs paths) = fs.putAll (plans c fs others) :=
  FileSet.putAll_perm (hperm.flatMap_right _) (nodup_plans hpaths hapart) fs

end AllInputs

/-! ## Any order -/

theorem buildReport_congr (c : BuildConfig) (files : List String) {builds others : List FileBuild}
    (hresults : builds.map (·.result) = others.map (·.result))
    (hprinted : builds.map (·.printed) = others.map (·.printed)) (after : FileSet) :
    buildReport c files builds after = buildReport c files others after := by
  rw [buildReport, buildReport, hresults, hprinted]

/-- The builds of inputs in their own order, after jobs were done in another. -/
def inSlots (jobs : List (String × Nat)) (count : Nat) (builds : List FileBuild) :
    List FileBuild :=
  (List.range count).filterMap fun slot => ((jobs.map (·.2)).zip builds).lookup slot

/-- Works off inputs in the order of jobs. A job is an input with its slot. -/
def workOff (c : BuildConfig) (j : Journal) (fs : FileSet) (jobs : List (String × Nat))
    (files : List String) : List FileBuild × FileSet :=
  let worked := buildFiles c j fs (jobs.map (·.1))
  (inSlots jobs files.length worked.1, worked.2)

section Slots

variable {α β : Type}

theorem lookup_zip_map (f : α → β) (slots : List Nat) (values : List α) (slot : Nat) :
    ((slots.zip values).lookup slot).map f = (slots.zip (values.map f)).lookup slot := by
  induction slots generalizing values with
  | nil => rfl
  | cons first slots ih =>
    cases values with
    | nil => rfl
    | cons value values =>
      rw [map_cons, zip_cons_cons, zip_cons_cons, lookup_cons, lookup_cons]
      cases slot == first with
      | true => rfl
      | false => exact ih values

theorem lookup_of_mem {slots : List (Nat × α)} (hnodup : (slots.map (·.1)).Nodup) {slot : Nat}
    {value : α} (h : (slot, value) ∈ slots) : slots.lookup slot = some value := by
  induction slots with
  | nil => cases h
  | cons first slots ih =>
    obtain ⟨hfirst, hslots⟩ := nodup_cons.mp hnodup
    rw [lookup_cons]
    rcases mem_cons.mp h with rfl | hmem
    · rw [beq_self_eq_true]
    · have hne : slot ≠ first.1 := by
        rintro rfl
        exact hfirst (mem_map.mpr ⟨_, hmem, rfl⟩)
      rw [beq_false_of_ne hne]
      exact ih hslots hmem

theorem filterMap_range_getElem? (values : List α) :
    (range values.length).filterMap (values[·]?) = values := by
  induction values with
  | nil => rfl
  | cons value values ih =>
    rw [length_cons, range_succ_eq_map, filterMap_cons_some getElem?_cons_zero, filterMap_map]
    exact congrArg (value :: ·) ih

/-- Whatever the order of the jobs, each input finds what came of it. -/
theorem map_inSlots {jobs : List (String × Nat)} {files : List String} {builds : List FileBuild}
    {f : FileBuild → β} {r : String → β} (hjobs : jobs.Perm files.zipIdx)
    (hbuilds : builds.map f = (jobs.map (·.1)).map r) :
    (inSlots jobs files.length builds).map f = files.map r := by
  have hzip : (jobs.map (·.2)).zip (builds.map f) = jobs.map fun job => (job.2, r job.1) := by
    rw [hbuilds, map_map, zip_map', Function.comp_def]
  have hnodup : ((jobs.map fun job => (job.2, r job.1)).map (·.1)).Nodup := by
    have hslots : (jobs.map (·.2)).Perm (range' 0 files.length) := by
      rw [← zipIdx_map_snd 0 files]
      exact hjobs.map _
    rw [map_map]
    exact hslots.nodup_iff.mpr nodup_range'
  have hslot : ∀ slot ∈ range files.length,
      (((jobs.map (·.2)).zip builds).lookup slot).map f = (files.map r)[slot]? := by
    intro slot hslot
    have hlt : slot < files.length := mem_range.mp hslot
    have hmem : (files[slot], slot) ∈ jobs := by
      rw [hjobs.mem_iff, mk_mem_zipIdx_iff_getElem?, getElem?_eq_getElem hlt]
    rw [lookup_zip_map, hzip, lookup_of_mem hnodup (mem_map.mpr ⟨_, hmem, rfl⟩),
      getElem?_map, getElem?_eq_getElem hlt]
    rfl
  have hlength : (files.map r).length = files.length := length_map r
  rw [inSlots, map_filterMap, filterMap_congr hslot, ← hlength]
  exact filterMap_range_getElem? _

end Slots

/-- An output of an input that compiles: its code, or its style sheet if there is any. -/
def IsOutput (c : BuildConfig) (fs : FileSet) (files : List String) (place : Location) : Prop :=
  ∃ path ∈ files, ∃ text out, source fs path = .ok text ∧ compile path text c.options = .ok out ∧
    (fs.locateFile (outputPaths path).1 = .ok place ∨
      out.css.isEmpty = false ∧ fs.locateFile (outputPaths path).2 = .ok place)

/-- A build ends at once and leaves the files as they are, or has inputs. -/
theorem buildTask_cases (fs : FileSet) (arguments : List String) :
    (∃ ended, buildTask fs arguments = .error ended ∧ ended.files = fs) ∨
      ∃ c paths files, buildTask fs arguments = .ok (c, files) ∧
        buildInputs c fs paths = .ok files := by
  rw [buildTask]
  cases readBuildArguments arguments with
  | error fault => exact .inl ⟨_, rfl, rfl⟩
  | ok read =>
    dsimp only
    cases hinputs : buildInputs read.1 fs read.2 with
    | error fault => exact .inl ⟨_, rfl, rfl⟩
    | ok files => exact .inr ⟨read.1, read.2, files, rfl, hinputs⟩

theorem isOutput_of_lookup_ne {place : Location}
    (hne : (fs.putAll (plans c fs files)).files.lookup place ≠ fs.files.lookup place) :
    IsOutput c fs files place := by
  by_contra hnone
  refine hne (FileSet.lookup_putAll ?_ fs)
  rintro w hw rfl
  obtain ⟨path, hpath, hw⟩ := mem_flatMap.mp hw
  exact hnone ⟨path, hpath, mem_plan hw⟩

/-- Where no log is kept, inputs that are different files may be worked off in any order: the build
ends the same way, with the same messages and the same files. No template is changed, and a file that
is new or has another content is an output of an input that compiles. -/
theorem run_build_in_any_order {j : Journal} (hj : j.target = none) (fs : FileSet)
    (arguments : List String) (jobs : List (String × Nat))
    (htask : ∀ c files, buildTask fs arguments = .ok (c, files) →
      c.IsPlain ∧ DenoteApart fs files ∧ jobs.Perm files.zipIdx) :
    buildWith (fun c => workOff c j fs jobs) fs arguments = run j fs ("build" :: arguments) ∧
      (run j fs ("build" :: arguments)).files.directories = fs.directories ∧
      (∀ place, isTemplateAt place = true →
        (run j fs ("build" :: arguments)).files.files.lookup place = fs.files.lookup place) ∧
      ∀ place,
        (run j fs ("build" :: arguments)).files.files.lookup place ≠ fs.files.lookup place →
        ∃ c files, buildTask fs arguments = .ok (c, files) ∧ IsOutput c fs files place := by
  have hrun : run j fs ("build" :: arguments) =
      buildWith (fun c => buildFiles c j fs) fs arguments := rfl
  rw [hrun, buildWith, buildWith]
  rcases buildTask_cases fs arguments with ⟨ended, hcase, hended⟩ | ⟨c, paths, files, hcase, hinputs⟩
  · rw [hcase]
    dsimp only
    rw [hended]
    exact ⟨rfl, rfl, fun _ _ => rfl, fun _ hne => absurd rfl hne⟩
  · obtain ⟨hplain, hapart, hjobs⟩ := htask c files hcase
    rw [hcase]
    dsimp only
    have hfiles := isTemplate_of_mem_buildInputs hinputs
    -- The paths of the jobs are the inputs in another order.
    have hperm : (jobs.map (·.1)).Perm files := by
      have hfirst := hjobs.map (·.1)
      rwa [List.zipIdx_map_fst] at hfirst
    obtain ⟨hresults, hprinted, hafter, hkept⟩ :=
      buildFiles_eq_plans hplain hj hfiles hapart.denotes (.refl fs)
    obtain ⟨hresults', hprinted', hafter', -⟩ := buildFiles_eq_plans hplain hj
      (fun path hpath => hfiles path (hperm.mem_iff.mp hpath))
      (fun path hpath => hapart.denotes path (hperm.mem_iff.mp hpath)) (.refl fs)
    refine ⟨?_, ?_, fun place hplace => ?_, fun place hne => ?_⟩
    · rw [workOff, hafter', hafter, ← putAll_plans_perm hperm.symm hfiles hapart]
      refine buildReport_congr c files ?_ ?_ _
      · rw [hresults, map_inSlots hjobs hresults']
      · rw [hprinted, map_inSlots hjobs hprinted']
    · rw [buildReport, files_conclude, hafter, FileSet.directories_putAll]
    · rw [buildReport, files_conclude, hafter, hkept.templates place hplace]
    · rw [buildReport, files_conclude, hafter] at hne
      exact ⟨c, files, rfl, isOutput_of_lookup_ne hne⟩

/-- A template with styles, one that cannot be read and one without styles. -/
def threeTemplates : FileSet :=
  .ofFiles [("ui/a.mft", "css:\n  p\n    color: red\nview:\n  p \"hi\"\n"),
    ("ui/b.mft", "view(:\n"),
    ("ui/c.mft", "view:\n  p \"x\"\n")] []

theorem threeTemplates_denoteApart :
    DenoteApart threeTemplates ["ui/a.mft", "ui/b.mft", "ui/c.mft"] := by
  have hlocate : ∀ path ∈ ["ui/a.mft", "ui/b.mft", "ui/c.mft"],
      threeTemplates.locate path = .ok (Location.ofPath path) ∧
        (threeTemplates.files.lookup (Location.ofPath path)).isSome := by
    decide +kernel
  have hplaces : ["ui/a.mft", "ui/b.mft", "ui/c.mft"].Pairwise fun path other =>
      Location.ofPath path ≠ Location.ofPath other := by
    decide +kernel
  constructor
  · intro path hpath
    obtain ⟨hplace, hfile⟩ := hlocate path hpath
    obtain ⟨content, hcontent⟩ := Option.isSome_iff_exists.mp hfile
    exact ⟨_, content, look_eq_file.mpr ⟨hplace, hcontent⟩⟩
  · refine hplaces.imp_of_mem fun {path other} hpath hother hne place h h' => hne ?_
    have hplace := (hlocate path hpath).1.symm.trans h.locate
    have hplace' := (hlocate other hother).1.symm.trans h'.locate
    exact Except.ok.inj (hplace.trans hplace'.symm)

theorem threeTemplates_build_in_any_order :
    (buildTask threeTemplates ["ui"]).toOption =
        some ({}, ["ui/a.mft", "ui/b.mft", "ui/c.mft"]) ∧
      (run {} threeTemplates ["build", "ui"]).exitCode = 1 ∧
      buildWith (fun c => workOff c {} threeTemplates
          [("ui/c.mft", 2), ("ui/a.mft", 0), ("ui/b.mft", 1)]) threeTemplates ["ui"] =
        run {} threeTemplates ["build", "ui"] := by
  have htask : (buildTask threeTemplates ["ui"]).toOption =
      some ({}, ["ui/a.mft", "ui/b.mft", "ui/c.mft"]) := by decide +kernel
  refine ⟨htask, by decide +kernel, (run_build_in_any_order rfl threeTemplates ["ui"] _ ?_).1⟩
  intro c files h
  rw [h] at htask
  cases htask
  exact ⟨⟨rfl, rfl, rfl⟩, threeTemplates_denoteApart, by decide⟩

end Stencil.Command
