import Mathlib.Data.List.Lex
import Mathlib.Data.List.Nodup
import Mathlib.Data.String.Basic
import Stencil.Files.FileSet

/-!
# What writing a file leaves as it was

A file that is written in a directory changes the content at its own place and nothing else: no
other file, and no directory. A path that led somewhere still leads there. Files at different
places may be written in any order.
-/
namespace Stencil

open List

/-! ## The order of a walk -/

theorem Location.before_iff (a b : Location) : a.before b ↔ a < b := by
  induction a generalizing b with
  | nil => cases b <;> simp [Location.before]
  | cons x a ih =>
    cases b with
    | nil => simp [Location.before]
    | cons y b =>
      rw [Location.before, cons_lt_cons_iff]
      split
      · next h => simp [h, ih]
      · next h => simp [h]

namespace FileSet

variable {fs fs' : FileSet} {place other p q : Location} {content : ByteArray}

/-! ## Contents -/

theorem lookup_cons (place : Location) (file : Location × ByteArray)
    (files : List (Location × ByteArray)) :
    (file :: files).lookup place = if place = file.1 then some file.2 else files.lookup place := by
  rw [List.lookup_cons]
  by_cases h : place = file.1
  · rw [h, beq_self_eq_true, if_pos rfl]
  · rw [beq_false_of_ne h, if_neg h]

theorem lookup_putIn (place other : Location) (content : ByteArray)
    (files : List (Location × ByteArray)) :
    (putIn place content files).lookup other =
      if other = place then some content else files.lookup other := by
  induction files with
  | nil => rw [putIn, lookup_cons]
  | cons file files ih =>
    rw [putIn]
    split
    · next heq =>
      rw [lookup_cons, lookup_cons, heq]
      by_cases h : other = place
      · rw [if_pos h, if_pos h]
      · rw [if_neg h, if_neg h, if_neg h]
    split
    · rw [lookup_cons]
    · next hne _ =>
      rw [lookup_cons, lookup_cons, ih]
      by_cases h : other = file.1
      · rw [if_pos h, if_pos h, if_neg (h ▸ hne)]
      · rw [if_neg h, if_neg h]

theorem any_putIn (p : Location → Bool) (place : Location) (content : ByteArray)
    (files : List (Location × ByteArray)) :
    (putIn place content files).any (p ·.1) = (p place || files.any (p ·.1)) := by
  induction files with
  | nil => rfl
  | cons file files ih =>
    rw [putIn]
    split
    · next heq => rw [any_cons, any_cons, heq, ← Bool.or_assoc, Bool.or_self]
    split
    · rfl
    · rw [any_cons, any_cons, ih, Bool.or_left_comm]

theorem putIn_comm (hne : p ≠ q) (a b : ByteArray) (files : List (Location × ByteArray)) :
    putIn q b (putIn p a files) = putIn p a (putIn q b files) := by
  wlog hlt : p < q generalizing p q a b
  · exact (this hne.symm b a (lt_of_le_of_ne (not_lt.mp hlt) hne.symm)).symm
  have hbefore : p.before q := (Location.before_iff p q).mpr hlt
  have hafter : q.before p = false := by
    rw [Bool.eq_false_iff, ne_eq, Location.before_iff]
    exact lt_asymm hlt
  induction files with
  | nil => simp [putIn, hne, hne.symm, hbefore, hafter]
  | cons file files ih =>
    obtain ⟨r, old⟩ := file
    by_cases hrp : r = p
    · simp [putIn, hrp, hne, hafter]
    by_cases hrq : r = q
    · simp [putIn, hrq, hne, hne.symm, hbefore, hafter]
    by_cases hp : p.before r
    · by_cases hq : q.before r
      · simp [putIn, hrp, hrq, hp, hq, hne, hne.symm, hbefore, hafter]
      · simp [putIn, hrp, hrq, hp, hq, hne, hafter]
    · -- Whatever comes before `p` comes before `q` too.
      have hq : ¬ q.before r := by
        rw [Location.before_iff] at hp ⊢
        exact fun h => hp (hlt.trans h)
      simp [putIn, hrp, hrq, hp, hq, ih]

theorem put_comm (hne : p ≠ q) (a b : ByteArray) (fs : FileSet) :
    (fs.put p a).put q b = (fs.put q b).put p a := by
  simp only [put, putIn_comm hne]

/-! ## Directories -/

theorem isDirectory_above {inner : Location} (h : fs.isDirectory inner)
    (habove : place <+: inner) : fs.isDirectory place := by
  simp only [isDirectory, Bool.or_eq_true, any_eq_true, Bool.and_eq_true,
    isPrefixOf_iff_prefix, decide_eq_true_eq] at h ⊢
  rcases h with (h | ⟨d, hd, hinner⟩) | ⟨f, hf, hinner, hne⟩
  · left; left
    simp only [Location.isBase, Bool.or_eq_true, all_eq_true, decide_eq_true_eq] at h ⊢
    rcases h with h | rfl
    · exact .inl fun part hpart => h part (habove.subset hpart)
    · rcases prefix_cons_iff.mp habove with rfl | ⟨t, rfl, ht⟩
      · exact .inl (forall_mem_nil _)
      · exact .inr (by rw [prefix_nil.mp ht])
  · exact .inl (.inr ⟨d, hd, habove.trans hinner⟩)
  · refine .inr ⟨f, hf, habove.trans hinner, ?_⟩
    rintro rfl
    exact hne (hinner.eq_of_length (le_antisymm hinner.length_le habove.length_le))

theorem isDirectory_of_node? (h : fs.node? place = some .directory) : fs.isDirectory place := by
  rw [node?] at h
  split at h
  · cases h
  · split at h
    · assumption
    · cases h

/-- A place where a file may be written: in a directory, and no directory itself. -/
structure Takes (fs : FileSet) (place : Location) : Prop where
  parent : fs.node? place.dropLast = some .directory
  free : fs.node? place ≠ some .directory

/-- The same places are directories. -/
def SameDirectories (fs fs' : FileSet) : Prop :=
  ∀ place, fs.node? place = some .directory ↔ fs'.node? place = some .directory

namespace SameDirectories

theorem refl (fs : FileSet) : fs.SameDirectories fs := fun _ => Iff.rfl

theorem trans {fs'' : FileSet} (h : fs.SameDirectories fs') (h' : fs'.SameDirectories fs'') :
    fs.SameDirectories fs'' := fun place => (h place).trans (h' place)

theorem takes (h : fs.SameDirectories fs') (htakes : fs.Takes place) : fs'.Takes place :=
  ⟨(h _).mp htakes.parent, fun hplace => htakes.free ((h _).mpr hplace)⟩

end SameDirectories

theorem isDirectory_put (htakes : fs.Takes place) (content : ByteArray) (other : Location) :
    (fs.put place content).isDirectory other = fs.isDirectory other := by
  rw [isDirectory, isDirectory, put]
  dsimp only
  rw [any_putIn (fun f => other.isPrefixOf f && decide (other ≠ f))]
  cases hother : other.isPrefixOf place && decide (other ≠ place) with
  | false => rw [Bool.false_or]
  | true =>
    simp only [Bool.and_eq_true, isPrefixOf_iff_prefix, decide_eq_true_eq] at hother
    -- A proper part of the way to the file is part of the way to its directory.
    have hparent : other <+: place.dropLast := by
      rw [prefix_iff_eq_take.mp hother.1, dropLast_eq_take]
      have hlt := lt_of_le_of_ne hother.1.length_le
        fun hlength => hother.2 (hother.1.eq_of_length hlength)
      exact take_prefix_take_left (by omega)
    have hdirectory := isDirectory_above (isDirectory_of_node? htakes.parent) hparent
    rw [isDirectory] at hdirectory
    rw [hdirectory, Bool.true_or, Bool.or_true]

theorem node?_put_of_ne (htakes : fs.Takes place) (content : ByteArray) (hne : other ≠ place) :
    (fs.put place content).node? other = fs.node? other := by
  have hlookup : (fs.put place content).files.lookup other = fs.files.lookup other := by
    rw [put, lookup_putIn, if_neg hne]
  rw [node?, node?, hlookup, isDirectory_put htakes]

theorem sameDirectories_put (htakes : fs.Takes place) (content : ByteArray) :
    fs.SameDirectories (fs.put place content) := by
  intro other
  by_cases hother : other = place
  · subst hother
    have hfile : (fs.put other content).node? other = some (.file content) := by
      rw [node?, put, lookup_putIn, if_pos rfl]
    rw [hfile]
    exact ⟨fun h => absurd h htakes.free, fun h => by cases h⟩
  · rw [node?_put_of_ne htakes content hother]

/-! ## Several files -/

/-- Writes one content after the other. -/
def putAll (fs : FileSet) (writes : List (Location × ByteArray)) : FileSet :=
  writes.foldl (fun fs w => fs.put w.1 w.2) fs

section PutAll

variable {writes others : List (Location × ByteArray)}

theorem putAll_append (fs : FileSet) (writes others : List (Location × ByteArray)) :
    fs.putAll (writes ++ others) = (fs.putAll writes).putAll others := foldl_append

theorem directories_putAll (fs : FileSet) (writes : List (Location × ByteArray)) :
    (fs.putAll writes).directories = fs.directories := by
  induction writes generalizing fs with
  | nil => rfl
  | cons w writes ih => exact ih (fs.put w.1 w.2)

theorem lookup_putAll (h : ∀ w ∈ writes, w.1 ≠ place) (fs : FileSet) :
    (fs.putAll writes).files.lookup place = fs.files.lookup place := by
  induction writes generalizing fs with
  | nil => rfl
  | cons w writes ih =>
    obtain ⟨hw, hwrites⟩ := forall_mem_cons.mp h
    have hput : (fs.put w.1 w.2).files.lookup place = fs.files.lookup place := by
      rw [put, lookup_putIn, if_neg hw.symm]
    exact (ih hwrites (fs.put w.1 w.2)).trans hput

theorem sameDirectories_putAll (h : ∀ w ∈ writes, fs.Takes w.1) :
    fs.SameDirectories (fs.putAll writes) := by
  induction writes generalizing fs with
  | nil => exact .refl fs
  | cons w writes ih =>
    obtain ⟨hw, hwrites⟩ := forall_mem_cons.mp h
    have hput := sameDirectories_put hw w.2
    exact hput.trans (ih fun w' hw' => hput.takes (hwrites w' hw'))

/-- Files at different places may be written in any order. -/
theorem putAll_perm (hperm : writes.Perm others) (hnodup : (writes.map (·.1)).Nodup)
    (fs : FileSet) : fs.putAll writes = fs.putAll others := by
  refine hperm.foldl_eq' (fun w hw w' hw' fs => ?_) fs
  by_cases hplace : w.1 = w'.1
  · rw [inj_on_of_nodup_map hnodup hw hw' hplace]
  · exact put_comm hplace w.2 w'.2 fs

end PutAll

/-! ## Paths -/

section Following

variable {parts : List String} {goal : Location}

/-- A path is followed part by part. -/
theorem follow_cons (fs : FileSet) (place : Location) (part : String) (parts : List String) :
    fs.follow place (part :: parts) = (fs.follow place [part]).bind (fs.follow · parts) := by
  simp only [follow]
  split
  · rfl
  · rfl
  · split_ifs <;> rfl

theorem follow_append (fs : FileSet) (place : Location) (first rest : List String) :
    fs.follow place (first ++ rest) = (fs.follow place first).bind (fs.follow · rest) := by
  induction first generalizing place with
  | nil => rfl
  | cons part first ih =>
    rw [cons_append, follow_cons, follow_cons fs place part first]
    cases fs.follow place [part] with
    | error e => rfl
    | ok next => exact ih next

theorem node?_of_follow {part : String} (h : fs.follow place [part] = .ok goal) :
    fs.node? place = some .directory := by
  rw [follow] at h
  split at h
  · cases h
  · cases h
  · assumption

/-- Where a path leads depends on directories only, if it leads anywhere. -/
theorem SameDirectories.follow (hsame : fs.SameDirectories fs')
    (h : fs.follow place parts = .ok goal) : fs'.follow place parts = .ok goal := by
  induction parts generalizing place with
  | nil => exact h
  | cons part parts ih =>
    rw [follow_cons] at h ⊢
    cases hnext : fs.follow place [part] with
    | error e => rw [hnext] at h; cases h
    | ok next =>
      have hdirectory := node?_of_follow hnext
      have hstep : fs'.follow place [part] = fs.follow place [part] := by
        simp only [FileSet.follow, hdirectory, (hsame place).mp hdirectory]
      rw [hnext] at h
      rw [hstep, hnext]
      exact ih h

theorem SameDirectories.locate (hsame : fs.SameDirectories fs') {path : String}
    (h : fs.locate path = .ok goal) : fs'.locate path = .ok goal := by
  rw [FileSet.locate] at h ⊢
  cases herror : Path.error? path with
  | some e => rw [herror] at h; cases h
  | none =>
    rw [herror] at h
    exact hsame.follow h

end Following
end FileSet
end Stencil
