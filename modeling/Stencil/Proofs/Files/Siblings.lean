import Stencil.Command.Inputs
import Stencil.Proofs.Files.Writing
import Stencil.Proofs.Text.Words

/-!
# The outputs of a template stand beside it

The paths of the outputs differ from the path of the template in their ends alone. So if the path
leads to a template, the outputs are files of the same directory, named like the template up to the
ending. Outputs of different templates are different files, and none of them is a template.
-/
namespace Stencil

open List

/-- A text without the separator makes the last part longer. -/
theorem Text.split_append_of_not_mem (separator : Char) (s : String) :
    ∃ before last, split separator s = before ++ [last] ∧
      ∀ t : String, separator ∉ t.toList → split separator (s ++ t) = before ++ [last ++ t] := by
  have hchars : ∀ cs : List Char, ∃ before last, splitChars separator cs = before ++ [last] ∧
      ∀ t, separator ∉ t → splitChars separator (cs ++ t) = before ++ [last ++ t] := by
    intro cs
    induction cs with
    | nil =>
      refine ⟨[], [], rfl, fun t ht => ?_⟩
      rw [nil_append, splitChars_eq_splitOn, splitOn_eq_singleton ht]
      rfl
    | cons c cs ih =>
      obtain ⟨before, last, hsplit, hlonger⟩ := ih
      by_cases hc : c = separator
      · refine ⟨[] :: before, last, ?_, fun t ht => ?_⟩
        · rw [splitChars, hsplit]
          cases before <;> simp [hc]
        · rw [cons_append, splitChars, hlonger t ht]
          cases before <;> simp [hc]
      · cases before with
        | nil =>
          refine ⟨[], c :: last, ?_, fun t ht => ?_⟩
          · simp [splitChars, hsplit, hc]
          · simp [splitChars, hlonger t ht, hc]
        | cons part before =>
          refine ⟨(c :: part) :: before, last, ?_, fun t ht => ?_⟩
          · simp [splitChars, hsplit, hc]
          · simp [splitChars, hlonger t ht, hc]
  obtain ⟨before, last, hsplit, hlonger⟩ := hchars s.toList
  refine ⟨before.map String.ofList, String.ofList last, ?_, fun t ht => ?_⟩
  · rw [split, hsplit, map_append, map_singleton]
  · rw [split, String.toList_append, hlonger t.toList ht, map_append, map_singleton,
      String.ofList_append, String.ofList_toList]

namespace Command

/-- The endings of outputs. -/
def outputEndings : List String := [".js", ".css"]

section Endings

variable {ending : String}

theorem ending_cases (h : ending ∈ templateExtension :: outputEndings) :
    ending = ".mft" ∨ ending = ".js" ∨ ending = ".css" := by
  simpa [outputEndings, templateExtension] using h

variable (h : ending ∈ templateExtension :: outputEndings)
include h

theorem size_ending : ending.utf8ByteSize ≤ templateExtension.utf8ByteSize := by
  rcases ending_cases h with rfl | rfl | rfl <;> decide

theorem slash_not_mem_ending : '/' ∉ ending.toList := by
  rcases ending_cases h with rfl | rfl | rfl <;> decide

/-- A name with an ending is no dots. -/
theorem append_ending_ne (stem : String) : ∀ dots ∈ ["", ".", ".."], stem ++ ending ≠ dots := by
  intro dots hdots heq
  have hlast : (stem ++ ending).toList.getLast? = ending.toList.getLast? := by
    rw [String.toList_append, getLast?_append]
    rcases ending_cases h with rfl | rfl | rfl <;> rfl
  rw [heq] at hlast
  simp only [mem_cons, not_mem_nil, or_false] at hdots
  rcases hdots with rfl | rfl | rfl <;> rcases ending_cases h with rfl | rfl | rfl <;>
    exact absurd hlast (by decide)

end Endings

/-- A name with an ending determines both. -/
theorem append_ending_inj {first second stem other : String}
    (hfirst : first ∈ templateExtension :: outputEndings)
    (hsecond : second ∈ templateExtension :: outputEndings)
    (heq : stem ++ first = other ++ second) : stem = other ∧ first = second := by
  have hback := congrArg (fun name => name.toList.reverse) heq
  simp only [String.toList_append, reverse_append] at hback
  rcases ending_cases hfirst with rfl | rfl | rfl <;>
    rcases ending_cases hsecond with rfl | rfl | rfl <;> simp at hback <;>
    exact ⟨String.toList_inj.mp hback, rfl⟩

/-! ## Paths of outputs -/

theorem eq_append_of_isTemplate {path : String} (h : isTemplate path) :
    ∃ base, path = base ++ templateExtension ∧
      outputPaths path = (base ++ ".js", base ++ ".css") := by
  have hsuffix : templateExtension.toList.isSuffixOf path.toList := h
  obtain ⟨front, hfront⟩ := isSuffixOf_iff_suffix.mp hsuffix
  have hbase : Path.dropSuffix path templateExtension = String.ofList front := by
    rw [Path.dropSuffix, if_pos hsuffix, ← hfront, length_append, Nat.add_sub_cancel, take_left]
  refine ⟨String.ofList front, ?_, by rw [outputPaths, hbase]⟩
  rw [← String.toList_inj, String.toList_append, String.toList_ofList, hfront]

section Places

variable {fs : FileSet} {base ending : String} {place : Location}

theorem isRooted_append (h : ending ∈ templateExtension :: outputEndings) :
    Path.isRooted (base ++ ending) = Path.isRooted base := by
  rw [Path.isRooted, Path.isRooted, String.toList_append]
  cases base.toList with
  | nil => rcases ending_cases h with rfl | rfl | rfl <;> decide
  | cons c cs => rfl

theorem error?_append (h : ending ∈ outputEndings)
    (hpath : Path.error? (base ++ templateExtension) = none) :
    Path.error? (base ++ ending) = none := by
  have hending : ending ∈ templateExtension :: outputEndings := mem_cons_of_mem _ h
  rw [Path.error?] at hpath ⊢
  split at hpath
  · cases hpath
  next hzero =>
  split at hpath
  · cases hpath
  split at hpath
  · cases hpath
  next hsize =>
  have hzero' : ¬ (base ++ ending).toList.contains '\x00' := by
    simp only [String.toList_append, contains_eq_mem, mem_append, decide_eq_true_eq,
      not_or] at hzero ⊢
    refine ⟨hzero.1, ?_⟩
    rcases ending_cases hending with rfl | rfl | rfl <;> decide
  have hempty : ¬ (base ++ ending).isEmpty := by
    rw [String.isEmpty_iff]
    exact append_ending_ne hending base _ (by simp)
  have hshort : ¬ (base ++ ending).utf8ByteSize > 4095 := by
    have hending := size_ending hending
    rw [String.utf8ByteSize_append] at hsize ⊢
    omega
  rw [if_neg hzero', if_neg hempty, if_neg hshort]

theorem isLongName_append {stem : String} (h : ending ∈ outputEndings)
    (hname : Path.isLongName (stem ++ templateExtension) = false) :
    Path.isLongName (stem ++ ending) = false := by
  have hending := size_ending (mem_cons_of_mem templateExtension h)
  simp only [Path.isLongName, String.utf8ByteSize_append, decide_eq_false_iff_not] at hname ⊢
  omega

/-- A name with an ending leads from a directory to the file of that name. -/
theorem follow_ending (h : ending ∈ templateExtension :: outputEndings) (directory : Location)
    (stem : String) (hfollow : fs.follow directory [stem ++ ending] = .ok place) :
    fs.node? directory = some .directory ∧ Path.isLongName (stem ++ ending) = false ∧
      place = directory ++ [stem ++ ending] := by
  have hdirectory := FileSet.node?_of_follow hfollow
  have hne := append_ending_ne h stem
  rw [FileSet.follow, hdirectory] at hfollow
  dsimp only at hfollow
  rw [if_neg (by simp [hne]), if_neg (hne ".." (by simp))] at hfollow
  split at hfollow
  · cases hfollow
  · next hshort =>
    refine ⟨hdirectory, by simpa using hshort, ?_⟩
    rw [FileSet.follow] at hfollow
    exact (Except.ok.inj hfollow).symm

/-- A file at a place, unless a directory is there. -/
def fileAt (fs : FileSet) (place : Location) : Except PathError Location :=
  if fs.node? place = some .directory then .error .isDirectory else .ok place

/-- A path whose last part is a name leads to the file of that name. -/
theorem locateFile_of_name {path name : String} {before : List String} {directory : Location}
    (hparts : Text.split '/' path = before ++ [name]) (herror : Path.error? path = none)
    (hname : ∀ dots ∈ ["", ".", ".."], name ≠ dots) (hshort : Path.isLongName name = false)
    (hfollow : fs.follow (Location.startOf path) before = .ok directory)
    (hdirectory : fs.node? directory = some .directory) :
    fs.locateFile path = fileAt fs (directory ++ [name]) := by
  have hback : (before ++ [name]).reverse.dropWhile (· = "") = name :: before.reverse := by
    rw [reverse_append, reverse_singleton, singleton_append,
      dropWhile_cons_of_neg (by simp [hname])]
  have hdot : fs.follow directory ["."] = .ok directory := by
    simp [FileSet.follow, hdirectory]
  have hgoal : fs.follow (Location.startOf path) (before.reverse.reverse ++ ["."]) =
      .ok directory := by
    rw [reverse_reverse, FileSet.follow_append, hfollow]
    exact hdot
  have hplain : (decide ((name :: before.reverse).length ≠ (before ++ [name]).length) ||
      decide (name = ".") || decide (name = "..")) = false := by
    simp [hname]
  rw [FileSet.locateFile, hparts, hback, herror]
  simp only [hgoal, bind, Except.bind, hplain, hshort, Bool.false_eq_true, if_false]
  rw [fileAt]
  cases fs.node? (directory ++ [name]) with
  | none => rfl
  | some node => cases node <;> rfl

/-- The outputs of a template are files of its directory. -/
theorem locateFile_output (h : fs.locate (base ++ templateExtension) = .ok place) :
    ∃ directory stem, place = directory ++ [stem ++ templateExtension] ∧
      fs.node? directory = some .directory ∧
      ∀ ending ∈ outputEndings,
        fs.locateFile (base ++ ending) = fileAt fs (directory ++ [stem ++ ending]) := by
  have hmft : templateExtension ∈ templateExtension :: outputEndings := mem_cons_self
  have hstart : ∀ ending ∈ templateExtension :: outputEndings,
      Location.startOf (base ++ ending) = Location.startOf base := by
    intro ending hending
    rw [Location.startOf, Location.startOf, isRooted_append hending]
  obtain ⟨before, stem, -, hsplit⟩ := Text.split_append_of_not_mem '/' base
  rw [FileSet.locate] at h
  cases herror : Path.error? (base ++ templateExtension) with
  | some e => rw [herror] at h; cases h
  | none =>
    rw [herror] at h
    dsimp only at h
    rw [hsplit _ (slash_not_mem_ending hmft), hstart _ hmft, FileSet.follow_append] at h
    cases hbefore : fs.follow (Location.startOf base) before with
    | error e => rw [hbefore] at h; cases h
    | ok directory =>
      rw [hbefore] at h
      obtain ⟨hdirectory, hshort, hplace⟩ := follow_ending hmft directory stem h
      refine ⟨directory, stem, hplace, hdirectory, fun ending hending => ?_⟩
      have hall : ending ∈ templateExtension :: outputEndings := mem_cons_of_mem _ hending
      refine locateFile_of_name (hsplit _ (slash_not_mem_ending hall))
        (error?_append hending herror) (append_ending_ne hall stem)
        (isLongName_append hending hshort) ?_ hdirectory
      rw [hstart _ hall, hbefore]

end Places
end Command
end Stencil
