import Stencil.Proofs.Command.Schedule

/-!
# What a build that fails leaves behind

The code of an input is written before its style sheet. So a build that fails leaves the files as
they were, except if the code could be written and the style sheet cannot: then the code stays.
Without paths of their own the outputs go beside the template, and the one thing that keeps a style
sheet from being written there is a directory of its name.
-/
namespace Stencil.Command

namespace BuildConfig

/-- Where the code of an input goes. -/
def codePath (c : BuildConfig) (path : String) : String :=
  if c.jsPath.isEmpty then (outputPaths path).1 else c.jsPath

/-- Where the style sheet of an input goes. -/
def sheetPath (c : BuildConfig) (path : String) : String :=
  if c.cssPath.isEmpty then (outputPaths path).2 else c.cssPath

end BuildConfig

/-- The code of an input can be written, and its style sheet cannot be written after it. -/
inductive HalfWritten (c : BuildConfig) (fs : FileSet) (path : String) :
    CommandFault → FileSet → Prop where
  | intro {text : String} {out : Output} {place : Location} {e : PathError}
      (hsource : source fs path = .ok text) (hcompile : compile path text c.options = .ok out)
      (hprinted : c.toStdout = false) (hcode : fs.locateFile (c.codePath path) = .ok place)
      (hsheet : (out.css.isEmpty && c.cssPath.isEmpty) = false)
      (hrefused : (fs.put place out.js.toUTF8).locateFile (c.sheetPath path) = .error e) :
      HalfWritten c fs path (.writing ⟨"open", c.sheetPath path, e⟩) (fs.put place out.js.toUTF8)

section Failing

variable {c : BuildConfig} {j : Journal} {fs after : FileSet} {path text : String}
  {fault : CommandFault}

theorem writeOutputs_cases (c : BuildConfig) (jsPath cssPath : String) (out : Output)
    (fs : FileSet) :
    (∃ e, writeOutputs c jsPath cssPath out fs = (.error e, fs)) ∨
      (∃ after, writeOutputs c jsPath cssPath out fs = (.ok out, after)) ∨
      ∃ place e, fs.locateFile jsPath = .ok place ∧ (out.css.isEmpty && c.cssPath.isEmpty) = false ∧
        (fs.put place out.js.toUTF8).locateFile cssPath = .error e ∧
        writeOutputs c jsPath cssPath out fs =
          (.error (.writing ⟨"open", cssPath, e⟩), fs.put place out.js.toUTF8) := by
  rw [writeOutputs, FileSet.write]
  cases hcode : fs.locateFile jsPath with
  | error e => exact .inl ⟨_, rfl⟩
  | ok place =>
    dsimp only
    cases hsheet : out.css.isEmpty && c.cssPath.isEmpty with
    | true => exact .inr (.inl ⟨_, rfl⟩)
    | false =>
      rw [FileSet.write]
      cases hrefused : (fs.put place out.js.toUTF8).locateFile cssPath with
      | ok sheet => exact .inr (.inl ⟨_, rfl⟩)
      | error e => exact .inr (.inr ⟨place, e, rfl, rfl, hrefused, rfl⟩)

/-- What is left of a build once its input is compiled. -/
theorem buildFile_eq_writeOutputs {out : Output} (hj : j.target = none)
    (hsource : source fs path = .ok text) (hcompile : compile path text c.options = .ok out)
    (hprinted : c.toStdout = false) :
    ((buildFile c j fs path).result, (buildFile c j fs path).files) =
      writeOutputs c (c.codePath path) (c.sheetPath path) out fs := by
  simp only [buildFile, hsource, hcompile, hprinted, Journal.logAll_of_none hj,
    Journal.log_of_none hj, Bool.false_eq_true, if_false]
  rfl

theorem HalfWritten.buildFile (h : HalfWritten c fs path fault after) (hj : j.target = none) :
    (buildFile c j fs path).result = .error fault ∧ (buildFile c j fs path).files = after := by
  cases h with
  | intro hsource hcompile hprinted hcode hsheet hrefused =>
    have hbuild := buildFile_eq_writeOutputs hj hsource hcompile hprinted
    rw [writeOutputs, FileSet.write, hcode, hsheet] at hbuild
    simp only [Bool.false_eq_true, if_false, FileSet.write, hrefused] at hbuild
    exact Prod.mk.inj hbuild

theorem halfWritten_of_failed (hj : j.target = none)
    (hfailed : (buildFile c j fs path).result = .error fault)
    (hne : (buildFile c j fs path).files ≠ fs) :
    HalfWritten c fs path fault (buildFile c j fs path).files := by
  cases hsource : source fs path with
  | error e => exact absurd (by rw [Command.buildFile, hsource]) hne
  | ok text =>
    cases hcompile : compile path text c.options with
    | error e =>
      simp only [Command.buildFile, hsource, hcompile, Journal.logAll_of_none hj] at hne
      exact absurd rfl hne
    | ok out =>
      cases hprinted : c.toStdout with
      | true =>
        simp only [Command.buildFile, hsource, hcompile, hprinted, if_true] at hfailed
        cases hfailed
      | false =>
        have hbuild := buildFile_eq_writeOutputs hj hsource hcompile hprinted
        rcases writeOutputs_cases c (c.codePath path) (c.sheetPath path) out fs with
          ⟨e, hwrite⟩ | ⟨after, hwrite⟩ | ⟨place, e, hcode, hsheet, hrefused, hwrite⟩
        · exact absurd (Prod.mk.inj (hbuild.trans hwrite)).2 hne
        · rw [(Prod.mk.inj (hbuild.trans hwrite)).1] at hfailed
          cases hfailed
        · obtain ⟨hresult, hfiles⟩ := Prod.mk.inj (hbuild.trans hwrite)
          rw [hresult] at hfailed
          rw [hfiles, ← Except.error.inj hfailed]
          exact .intro hsource hcompile hprinted hcode hsheet hrefused

theorem locate_of_source (h : source fs path = .ok text) : ∃ place, fs.locate path = .ok place := by
  rw [source, FileSet.read, FileSet.look] at h
  cases hplace : fs.locate path with
  | ok place => exact ⟨place, rfl⟩
  | error e =>
    rw [hplace] at h
    cases h

/-- Beside a template only a directory keeps a style sheet from being written. -/
theorem HalfWritten.directory (h : HalfWritten c fs path fault after) (hjs : c.jsPath = "")
    (hcss : c.cssPath = "") (hpath : isTemplate path) :
    ∃ directory stem, fs.locate path = .ok (directory ++ [stem ++ templateExtension]) ∧
      fs.node? (directory ++ [stem ++ ".css"]) = some .directory ∧
      fault = .writing ⟨"open", (outputPaths path).2, .isDirectory⟩ := by
  obtain ⟨base, rfl, hpaths⟩ := eq_append_of_isTemplate hpath
  cases h with
  | intro hsource _ _ hcode _ hrefused =>
    obtain ⟨place, hplace⟩ := locate_of_source hsource
    have hcodePath : c.codePath (base ++ templateExtension) = base ++ ".js" := by
      rw [BuildConfig.codePath, hjs, hpaths]
      rfl
    have hsheetPath : c.sheetPath (base ++ templateExtension) = base ++ ".css" := by
      rw [BuildConfig.sheetPath, hcss, hpaths]
      rfl
    rw [hcodePath] at hcode
    obtain ⟨-, htakes⟩ := outputAt_of_locateFile (by decide) hplace hcode
    obtain ⟨directory, stem, rfl, -, houtputs⟩ := locateFile_output hplace
    rw [hsheetPath, locateFile_output_eq (FileSet.sameDirectories_put htakes _) (by decide) hplace,
      houtputs ".css" (by decide), fileAt] at hrefused
    split at hrefused
    · next hdirectory =>
      cases hrefused
      rw [hsheetPath, hpaths]
      exact ⟨directory, stem, hplace, hdirectory, rfl⟩
    · cases hrefused

/-- Where no log is kept, a build that fails changes a file exactly if it writes the code of its input
and finds that the style sheet cannot be written. Then only the code is new. If the outputs go beside
the template, a directory stands where the style sheet should go. -/
theorem failed_build_changes_iff (hj : j.target = none) (c : BuildConfig) (fs : FileSet)
    (path : String) (fault : CommandFault) (after : FileSet) :
    ((buildFile c j fs path).result = .error fault ∧ (buildFile c j fs path).files = after ∧
        after ≠ fs ↔ HalfWritten c fs path fault after ∧ after ≠ fs) ∧
      (HalfWritten c fs path fault after → c.jsPath = "" → c.cssPath = "" →
        isTemplate path = true → ∃ directory stem,
          fs.locate path = .ok (directory ++ [stem ++ templateExtension]) ∧
          fs.node? (directory ++ [stem ++ ".css"]) = some .directory ∧
          fault = .writing ⟨"open", (outputPaths path).2, .isDirectory⟩) := by
  refine ⟨⟨?_, ?_⟩, HalfWritten.directory⟩
  · rintro ⟨hfailed, rfl, hne⟩
    exact ⟨halfWritten_of_failed hj hfailed hne, hne⟩
  · rintro ⟨hhalf, hne⟩
    obtain ⟨hfailed, hfiles⟩ := hhalf.buildFile hj
    exact ⟨hfailed, hfiles, hne⟩

end Failing

/-- A template with styles, and a directory where its style sheet should go. -/
def cardWithDirectory : FileSet :=
  .ofFiles [("card.mft", "css:\n  p\n    color: red\ncard:\n  p \"x\"\n")] ["card.css"]

theorem cardWithDirectory_half_written :
    ∃ after, HalfWritten {} cardWithDirectory "card.mft"
        (.writing ⟨"open", "card.css", .isDirectory⟩) after ∧ after ≠ cardWithDirectory := by
  have hfailed : fault? (buildFile {} {} cardWithDirectory "card.mft").result =
      some (.writing ⟨"open", "card.css", .isDirectory⟩) := by decide +kernel
  have hne : (buildFile {} {} cardWithDirectory "card.mft").files ≠ cardWithDirectory := by
    decide +kernel
  cases hresult : (buildFile {} {} cardWithDirectory "card.mft").result with
  | ok out =>
    rw [hresult] at hfailed
    cases hfailed
  | error fault =>
    rw [hresult] at hfailed
    obtain rfl := Option.some.inj hfailed
    exact ⟨_, (failed_build_changes_iff rfl {} _ _ _ _).1.mp ⟨hresult, rfl, hne⟩⟩

/-- The build of the card fails, and its code is there nevertheless. -/
theorem cardWithDirectory_changed :
    (fault? (buildFile {} {} cardWithDirectory "card.mft").result).isSome = true ∧
      (cardWithDirectory.changes (buildFile {} {} cardWithDirectory "card.mft").files).map (·.1) =
        [["card.js"]] := by
  decide +kernel

end Stencil.Command
