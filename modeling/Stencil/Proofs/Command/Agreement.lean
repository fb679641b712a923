import Stencil.Command.Run

/-!
# A check and a build that only prints agree

Both commands collect the same inputs, and a source compiles just if it can be read. So both report
the same faults in the same order and end with the same code, and neither changes a file. Nothing is
said of what they print besides their faults.
-/
namespace Stencil.Command

open List

/-! ## Results and their faults -/

def fault? {α : Type} : Except CommandFault α → Option CommandFault
  | .ok _ => none
  | .error fault => some fault

section Results

variable {α β : Type} {results : List (Except CommandFault α)}
  {others : List (Except CommandFault β)} {o o' : Outcome}

theorem failureLine_eq (result : Except CommandFault α) :
    failureLine result = (fault? result).elim "" CommandFault.line := by
  cases result <;> rfl

theorem failureCount_eq (results : List (Except CommandFault α)) :
    failureCount results = (results.map fault?).countP Option.isSome := by
  rw [failureCount, countP_map]
  congr 1
  funext result
  cases result <;> rfl

/-- What the user is told of a run: its code and its messages. -/
structure Outcome.TellsAs (o o' : Outcome) : Prop where
  exitCode : o.exitCode = o'.exitCode
  stderr : o.stderr = o'.stderr

theorem Outcome.TellsAs.failed (h : o.TellsAs o') (fault : CommandFault) :
    (o.failed fault).TellsAs (o'.failed fault) where
  exitCode := rfl
  stderr := by rw [Outcome.failed, Outcome.failed, h.stderr]

/-- The end of a run depends on the faults alone. -/
theorem conclude_tellsAs (h : results.map fault? = others.map fault?) (ho : o.TellsAs o')
    (success success' : String) :
    (conclude results success o).TellsAs (conclude others success' o') := by
  have hlines : results.map failureLine = others.map failureLine := by
    have hline : ∀ {γ : Type} (rs : List (Except CommandFault γ)),
        rs.map failureLine = (rs.map fault?).map (Option.elim · "" CommandFault.line) := by
      intro γ rs
      rw [map_map]
      exact map_congr_left fun result _ => failureLine_eq result
    rw [hline, hline, h]
  have hcount : failureCount results = failureCount others := by
    rw [failureCount_eq, failureCount_eq, h]
  have htold : Outcome.TellsAs { o with stderr := o.stderr ++ String.join (results.map failureLine) }
      { o' with stderr := o'.stderr ++ String.join (others.map failureLine) } :=
    ⟨ho.exitCode, by rw [ho.stderr, hlines]⟩
  rw [conclude, conclude, hcount]
  split
  · exact htold.failed _
  · exact ⟨htold.exitCode, htold.stderr⟩

theorem files_conclude (results : List (Except CommandFault α)) (success : String) (o : Outcome) :
    (conclude results success o).files = o.files := by
  rw [conclude]
  split <;> rfl

end Results

/-! ## One input -/

theorem Journal.logAll_of_none {j : Journal} (hj : j.target = none) (messages : List String)
    (fs : FileSet) : j.logAll messages fs = fs := by
  induction messages generalizing fs with
  | nil => rfl
  | cons message messages ih =>
    have hlog : j.log message fs = fs := by rw [Journal.log, hj]
    rw [Journal.logAll, foldl_cons, hlog]
    exact ih fs

section Printing

variable {c : BuildConfig} {j : Journal} (hprints : c.toStdout) (hj : j.target = none)
include hprints hj

/-- A source compiles just if it can be read, and what is wrong with it is the same. -/
theorem buildFile_of_prints (fs : FileSet) (path : String) :
    (buildFile c j fs path).files = fs ∧
      fault? (buildFile c j fs path).result = fault? (checkFile fs path) := by
  rw [buildFile, checkFile]
  cases source fs path with
  | error fault => exact ⟨rfl, rfl⟩
  | ok text =>
    simp only [Journal.logAll_of_none hj]
    rw [compile]
    cases Template.read path text with
    | error fault => exact ⟨rfl, rfl⟩
    | ok template =>
      rw [hprints]
      exact ⟨rfl, rfl⟩

theorem buildFiles_of_prints (fs : FileSet) (paths : List String) :
    (buildFiles c j fs paths).2 = fs ∧
      ((buildFiles c j fs paths).1.map (·.result)).map fault? =
        (paths.map (checkFile fs)).map fault? := by
  induction paths with
  | nil => exact ⟨rfl, rfl⟩
  | cons path paths ih =>
    obtain ⟨hfiles, hfault⟩ := buildFile_of_prints hprints hj fs path
    rw [buildFiles, hfiles]
    refine ⟨ih.1, ?_⟩
    rw [map_cons, map_cons, map_cons, map_cons, hfault, ih.2]

end Printing

/-! ## Arguments -/

/-- An argument that cannot be taken for a flag. -/
def isOperand (argument : String) : Bool := argument.toList.head? ≠ some '-'

variable {argument : String}

theorem flagWord_of_isOperand (h : isOperand argument) : FlagWord.of argument = .operand := by
  have hhead : argument.toList.head? ≠ some '-' := of_decide_eq_true h
  rw [FlagWord.of]
  split <;> simp_all

theorem not_isVerboseWord (h : isOperand argument) : isVerboseWord argument = false := by
  rw [isVerboseWord, Bool.or_eq_false_iff, decide_eq_false_iff_not, decide_eq_false_iff_not]
  constructor
  · rintro rfl
    cases h
  · rintro rfl
    cases h

variable {paths : List String}

theorem filter_not_isVerboseWord (h : ∀ path ∈ paths, isOperand path) :
    paths.filter (!isVerboseWord ·) = paths := by
  rw [filter_eq_self]
  intro path hpath
  rw [not_isVerboseWord (h path hpath)]
  rfl

/-- Operands end the flags. -/
theorem readFlags_of_isOperand (h : ∀ path ∈ paths, isOperand path) (c : BuildConfig) :
    readFlags c paths = .ok (c, paths) := by
  cases paths with
  | nil => rfl
  | cons path paths => rw [readFlags, flagWord_of_isOperand (h path mem_cons_self)]

theorem readBuildArguments_stdout (h : ∀ path ∈ paths, isOperand path) :
    readBuildArguments ("-stdout" :: paths) =
      .ok ({ toStdout := true }, if paths.isEmpty then ["."] else paths) := by
  have hset : Flag.set {} .stdout "true" = .ok { toStdout := true } := rfl
  have hflags : readFlags {} ("-stdout" :: paths) = .ok ({ toStdout := true }, paths) := by
    change (Flag.set {} .stdout "true" >>= fun c => readFlags c paths) = _
    rw [hset]
    exact readFlags_of_isOperand h _
  rw [readBuildArguments, hflags]
  rfl

theorem buildInputs_of_prints (fs : FileSet) (paths : List String) :
    buildInputs { toStdout := true } fs paths = someInputs fs paths := by
  rw [buildInputs]
  cases someInputs fs paths <;> rfl

/-! ## Both commands -/

theorem files_check (fs : FileSet) (arguments : List String) : (check fs arguments).files = fs := by
  rw [check]
  cases someInputs fs _ with
  | error fault => rfl
  | ok files => exact files_conclude _ _ _

section Commands

variable {j : Journal} (hj : j.target = none) (fs : FileSet)
  (hpaths : ∀ path ∈ paths, isOperand path)
include hj hpaths

theorem check_tellsAs_build : (check fs paths).TellsAs (build j fs ("-stdout" :: paths)) := by
  rw [check, filter_not_isVerboseWord hpaths, build, buildWith, buildTask,
    readBuildArguments_stdout hpaths]
  simp only [buildInputs_of_prints]
  cases someInputs fs (if paths.isEmpty then ["."] else paths) with
  | error fault => exact ⟨rfl, rfl⟩
  | ok files =>
    have hfaults := (buildFiles_of_prints (c := { toStdout := true }) rfl hj fs files).2
    refine conclude_tellsAs hfaults.symm ?_ _ _
    exact ⟨rfl, rfl⟩

theorem files_build_stdout : (build j fs ("-stdout" :: paths)).files = fs := by
  rw [build, buildWith, buildTask, readBuildArguments_stdout hpaths]
  simp only [buildInputs_of_prints]
  cases someInputs fs (if paths.isEmpty then ["."] else paths) with
  | error fault => rfl
  | ok files =>
    have hfiles := (buildFiles_of_prints (c := { toStdout := true }) rfl hj fs files).1
    exact (files_conclude _ _ _).trans hfiles

end Commands

/-- Where no log is kept, a check ends as a build that only prints, with the same messages, and
neither of them changes a file. -/
theorem run_check_tells_as_build {j : Journal} (hj : j.target = none) (fs : FileSet)
    (hpaths : ∀ path ∈ paths, isOperand path = true) :
    (run j fs ("check" :: paths)).exitCode = (run j fs ("build" :: "-stdout" :: paths)).exitCode ∧
      (run j fs ("check" :: paths)).stderr = (run j fs ("build" :: "-stdout" :: paths)).stderr ∧
      (run j fs ("check" :: paths)).files = fs ∧
      (run j fs ("build" :: "-stdout" :: paths)).files = fs := by
  have htells := check_tellsAs_build hj fs hpaths
  exact ⟨htells.exitCode, htells.stderr, files_check fs paths, files_build_stdout hj fs hpaths⟩

/-- A directory with a template that can be read, one that cannot and a file that is none. -/
def sampleFiles : FileSet :=
  .ofFiles [("ui/a.mft", "view:\n  p \"hi\"\n"), ("ui/b.mft", "view(:\n"), ("ui/c.txt", "")] []

theorem sampleFiles_check_tells_as_build :
    (∀ path ∈ ["ui", "./..."], isOperand path = true) ∧
      (run {} sampleFiles ["check", "ui", "./..."]).exitCode = 1 ∧
      (run {} sampleFiles ["check", "ui", "./..."]).exitCode =
        (run {} sampleFiles ["build", "-stdout", "ui", "./..."]).exitCode ∧
      (run {} sampleFiles ["check", "ui", "./..."]).stderr =
        (run {} sampleFiles ["build", "-stdout", "ui", "./..."]).stderr := by
  have hpaths : ∀ path ∈ ["ui", "./..."], isOperand path = true := by decide
  obtain ⟨hcode, hstderr, -⟩ := run_check_tells_as_build (j := {}) rfl sampleFiles hpaths
  exact ⟨hpaths, by decide +kernel, hcode, hstderr⟩

end Stencil.Command
