import Mathlib.Data.List.SplitBy
import Stencil.Proofs.Style.Variables

/-!
# Variables found by a pattern

The name of a variable is a letter or an underscore with word characters and dashes after it, where no
word character, dot or dash stands right before or right after. A search for this pattern takes as
many characters as it can and gives some back where what follows does not fit. So it finds runs of
word characters, dots and dashes as a whole or not at all, and one pass over a text replaces them.
-/
namespace Stencil

open Text (joinBytes isLetter isWordChar)
open List

namespace Text

/-- A place in a text: what is before it, last character first, and what is after it. -/
structure Spot where
  before : List Char
  after : List Char

inductive Pattern where
  | one (test : Char → Bool)
  | many (test : Char → Bool)
  | notBehind (test : Char → Bool)
  | notAhead (test : Char → Bool)
  | seq (first second : Pattern)

namespace Pattern

def manyEnds (test : Char → Bool) (before : List Char) : List Char → List Spot
  | [] => [⟨before, []⟩]
  | c :: cs =>
    if test c then manyEnds test (c :: before) cs ++ [⟨before, c :: cs⟩] else [⟨before, c :: cs⟩]

/-- Where a match may end, in the order in which the ways are tried: a repetition goes on as long as it
can and is cut shorter only if what follows does not match. -/
def ends : Pattern → Spot → List Spot
  | .one test, s =>
    if s.after.head?.any test then [⟨s.after.take 1 ++ s.before, s.after.tail⟩] else []
  | .many test, s => manyEnds test s.before s.after
  | .notBehind test, s => if s.before.head?.any test then [] else [s]
  | .notAhead test, s => if s.after.head?.any test then [] else [s]
  | .seq p q, s => (p.ends s).flatMap q.ends

/-- The length of the first match at a place, zero if there is none. -/
def length (p : Pattern) (s : Spot) : Nat :=
  ((p.ends s).head?.map fun e => s.after.length - e.after.length).getD 0

/-- Goes through a text from the left and puts something else in for each match. After a match
`taken` characters of it are still to be passed over. What is put in is not looked at again. -/
def replaceFrom (p : Pattern) (replace : String → ByteArray) (taken : Nat) (before : List Char) :
    List Char → List ByteArray
  | [] => []
  | c :: cs =>
    let length := p.length ⟨before, c :: cs⟩
    if 0 < taken then p.replaceFrom replace (taken - 1) (c :: before) cs
    else if length = 0 then c.toString.toUTF8 :: p.replaceFrom replace 0 (c :: before) cs
    else
      replace (String.ofList ((c :: cs).take length)) ::
        p.replaceFrom replace (length - 1) (c :: before) cs

def replaceAll (p : Pattern) (replace : String → ByteArray) (text : String) : ByteArray :=
  joinBytes (p.replaceFrom replace 0 [] text.toList)

variable (p : Pattern) (replace : String → ByteArray) {before : List Char}

theorem replaceFrom_taken (run before rest : List Char) :
    p.replaceFrom replace run.length before (run ++ rest) =
      p.replaceFrom replace 0 (run.reverse ++ before) rest := by
  induction run generalizing before with
  | nil => rfl
  | cons c run ih =>
    rw [cons_append, replaceFrom, length_cons, if_pos (Nat.succ_pos _), Nat.add_sub_cancel,
      ih, reverse_cons, append_assoc]
    rfl

theorem replaceFrom_of_none {c : Char} {cs : List Char} (h : p.length ⟨before, c :: cs⟩ = 0) :
    p.replaceFrom replace 0 before (c :: cs) =
      c.toString.toUTF8 :: p.replaceFrom replace 0 (c :: before) cs := by
  rw [replaceFrom, h, if_neg (Nat.lt_irrefl 0), if_pos rfl]

theorem replaceFrom_of_match {run rest : List Char} (hrun : run ≠ [])
    (h : p.length ⟨before, run ++ rest⟩ = run.length) :
    p.replaceFrom replace 0 before (run ++ rest) =
      replace (String.ofList run) :: p.replaceFrom replace 0 (run.reverse ++ before) rest := by
  cases run with
  | nil => exact absurd rfl hrun
  | cons c run =>
    rw [cons_append] at h ⊢
    rw [replaceFrom, h, if_neg (Nat.lt_irrefl 0), length_cons, if_neg (Nat.succ_ne_zero _),
      Nat.add_sub_cancel, replaceFrom_taken]
    simp

end Pattern
end Text

namespace Substitution

open Text (Pattern)

/-- The pattern of names of variables. -/
def namePattern : Pattern :=
  .seq (.notBehind isRunChar) (.seq (.one isLetter)
    (.seq (.many fun c => isWordChar c || c == '-') (.notAhead isRunChar)))

/-- The longest runs of word characters, dots and dashes, and the other characters one by one. -/
def wholeRuns (text : String) : List (List Char) :=
  text.toList.splitBy fun c d => isRunChar c && isRunChar d

/-- What a name becomes. -/
def nameValue (value? : String → Option ByteArray) (name : String) : ByteArray :=
  (value? name).getD name.toUTF8

/-- A run is a name if it starts with a letter or an underscore and has no dot in it. -/
def replaceWhole (value? : String → Option ByteArray) (run : List Char) : ByteArray :=
  if run.head?.any isLetter ∧ '.' ∉ run then nameValue value? (String.ofList run)
  else (String.ofList run).toUTF8

variable {value? : String → Option ByteArray} {before run rest : List Char} {c : Char}

/-! ## One match -/

theorem isLetter_of_stop (h : isRunChar c = false) : isLetter c = false := by
  rw [← Bool.not_eq_true] at h ⊢
  intro hletter
  apply h
  have hsmall : c.toNat < 0x80 := by
    simp only [isLetter, Bool.or_eq_true, Bool.and_eq_true, decide_eq_true_eq, beq_iff_eq,
      Char.le_def, UInt32.le_iff_toNat_le] at hletter
    rcases hletter with (⟨-, h⟩ | ⟨-, h⟩) | rfl
    · exact Nat.lt_of_le_of_lt h (by decide)
    · exact Nat.lt_of_le_of_lt h (by decide)
    · decide
  simp [isRunChar, isWordChar, hsmall, hletter]

/-- A repetition that has to end in front of what is in no run ends there or nowhere. -/
theorem manyEnds_notAhead (hrun : ∀ c ∈ run, isRunChar c)
    (hrest : rest.head?.any isRunChar = false) (before : List Char) :
    (Pattern.manyEnds (fun c => isWordChar c || c == '-') before (run ++ rest)).flatMap
        (Pattern.notAhead isRunChar).ends =
      if '.' ∈ run then [] else [⟨run.reverse ++ before, rest⟩] := by
  induction run generalizing before with
  | nil =>
    cases rest with
    | nil => simp [Pattern.manyEnds, Pattern.ends]
    | cons c rest =>
      have hc : isRunChar c = false := hrest
      have hpart : (isWordChar c || c == '-') = false := by
        simp only [isRunChar, Bool.or_eq_false_iff] at hc ⊢
        exact ⟨hc.1.1, hc.2⟩
      simp [Pattern.manyEnds, Pattern.ends, hpart, hc]
  | cons c run ih =>
    obtain ⟨hc, hrun⟩ := forall_mem_cons.mp hrun
    rw [cons_append, Pattern.manyEnds]
    by_cases hdot : c = '.'
    · subst hdot
      have hpart : (isWordChar '.' || '.' == '-') = false := by decide
      rw [hpart, if_neg Bool.false_ne_true]
      simp [Pattern.ends, hc]
    · have hpart : (isWordChar c || c == '-') := by simpa [isRunChar, hdot] using hc
      rw [hpart, if_pos rfl, flatMap_append, ih hrun]
      simp [Pattern.ends, hc, Ne.symm hdot]

theorem length_stop (h : isRunChar c = false) (before cs : List Char) :
    namePattern.length ⟨before, c :: cs⟩ = 0 := by
  cases hbefore : before.head?.any isRunChar <;>
    simp [namePattern, Pattern.length, Pattern.ends, hbefore, isLetter_of_stop h]

theorem length_inside (h : before.head?.any isRunChar) (after : List Char) :
    namePattern.length ⟨before, after⟩ = 0 := by
  simp [namePattern, Pattern.length, Pattern.ends, h]

/-- At the start of a run the whole of it is found, or nothing. -/
theorem length_run (hbefore : before.head?.any isRunChar = false)
    (hrun : ∀ c ∈ run, isRunChar c) (hrest : rest.head?.any isRunChar = false) :
    namePattern.length ⟨before, run ++ rest⟩ =
      if run.head?.any isLetter ∧ '.' ∉ run then run.length else 0 := by
  have hends : namePattern.ends ⟨before, run ++ rest⟩ =
      if (run ++ rest).head?.any isLetter then
        (Pattern.manyEnds (fun c => isWordChar c || c == '-') ((run ++ rest).take 1 ++ before)
          (run ++ rest).tail).flatMap (Pattern.notAhead isRunChar).ends
      else [] := by
    simp only [namePattern, Pattern.ends, hbefore, Bool.false_eq_true, if_false, flatMap_singleton]
    split <;> simp only [flatMap_singleton, flatMap_nil]
  rw [Pattern.length, hends]
  cases run with
  | nil =>
    have hletter : rest.head?.any isLetter = false := by
      cases rest with
      | nil => rfl
      | cons c rest => exact isLetter_of_stop hrest
    simp [hletter]
  | cons c run =>
    obtain ⟨hc, hrun⟩ := forall_mem_cons.mp hrun
    by_cases hletter : isLetter c
    · have hdot : '.' ≠ c := by rintro rfl; exact absurd hletter (by decide)
      have hmany := manyEnds_notAhead hrun hrest (c :: before)
      by_cases hinner : '.' ∈ run
      · simp [hinner, hletter, hmany]
      · simp [hinner, hletter, hdot, hmany]
        omega
    · simp [hletter]

/-! ## A pass over a text -/

theorem toUTF8_cons (c : Char) (cs : List Char) :
    c.toString.toUTF8 ++ (String.ofList cs).toUTF8 = (String.ofList (c :: cs)).toUTF8 := by
  rw [← toUTF8_append]
  congr 1
  rw [← String.toList_inj]
  simp

/-- Inside a run nothing is found. -/
theorem joinBytes_inside (replace : String → ByteArray) (before run rest : List Char)
    (hbefore : before.head?.any isRunChar) (hrun : ∀ c ∈ run, isRunChar c) :
    joinBytes (namePattern.replaceFrom replace 0 before (run ++ rest)) =
      (String.ofList run).toUTF8 ++
        joinBytes (namePattern.replaceFrom replace 0 (run.reverse ++ before) rest) := by
  induction run generalizing before with
  | nil => exact ByteArray.empty_append.symm
  | cons c run ih =>
    obtain ⟨hc, hrun⟩ := forall_mem_cons.mp hrun
    rw [cons_append, Pattern.replaceFrom_of_none _ _ (length_inside hbefore _),
      Text.joinBytes_cons, ih (c :: before) hc hrun, ← ByteArray.append_assoc, toUTF8_cons,
      reverse_cons, append_assoc]
    rfl

/-- A run that stands by itself becomes what it should. -/
theorem joinBytes_run (before run rest : List Char) (hbefore : before.head?.any isRunChar = false)
    (hrun : ∀ c ∈ run, isRunChar c) (hrest : rest.head?.any isRunChar = false) :
    joinBytes (namePattern.replaceFrom (nameValue value?) 0 before (run ++ rest)) =
      replaceWhole value? run ++
        joinBytes (namePattern.replaceFrom (nameValue value?) 0 (run.reverse ++ before) rest) := by
  have hlength := length_run hbefore hrun hrest
  unfold replaceWhole
  split at hlength
  · next hname =>
    have hne : run ≠ [] := by
      rintro rfl
      cases hname.1
    rw [if_pos hname, Pattern.replaceFrom_of_match _ _ hne hlength, Text.joinBytes_cons]
  · next hname =>
    rw [if_neg hname]
    cases run with
    | nil => exact ByteArray.empty_append.symm
    | cons c run =>
      obtain ⟨hc, hrun⟩ := forall_mem_cons.mp hrun
      rw [cons_append] at hlength ⊢
      rw [Pattern.replaceFrom_of_none _ _ hlength, Text.joinBytes_cons,
        joinBytes_inside _ (c :: before) run rest hc hrun, ← ByteArray.append_assoc,
        toUTF8_cons, reverse_cons, append_assoc]
      rfl

/-- A text is a run, or a run, a character that is in none, and a text again. -/
theorem runs_induction {P : List Char → Prop} (hrun : ∀ run, (∀ c ∈ run, isRunChar c) → P run)
    (hstop : ∀ run c cs, (∀ d ∈ run, isRunChar d) → isRunChar c = false → P cs →
      P (run ++ c :: cs)) (cs : List Char) : P cs := by
  induction hlength : cs.length using Nat.strong_induction_on generalizing cs with
  | _ n ih =>
    have hfront : ∀ d ∈ cs.takeWhile isRunChar, isRunChar d := fun d => mem_takeWhile_imp
    rw [← takeWhile_append_dropWhile (p := isRunChar) (l := cs)]
    cases hback : cs.dropWhile isRunChar with
    | nil =>
      rw [append_nil]
      exact hrun _ hfront
    | cons c rest =>
      have hc := head?_dropWhile_not isRunChar cs
      rw [hback] at hc
      refine hstop _ c rest hfront (by simpa using hc) (ih rest.length ?_ rest rfl)
      have hsum := congrArg length (takeWhile_append_dropWhile (p := isRunChar) (l := cs))
      rw [hback, length_append, length_cons] at hsum
      omega

theorem replaceRun_eq_whole (run : List Char) : replaceRun value? run = replaceWhole value? run := by
  have hname : isVariable run ↔ run.head?.any isLetter ∧ '.' ∉ run := by
    rw [isVariable, Bool.and_eq_true, all_eq_true]
    refine and_congr_right fun _ => ⟨fun h hdot => ?_, fun h c hc => ?_⟩
    · exact of_decide_eq_true (h '.' hdot) rfl
    · exact decide_eq_true fun heq => h (heq ▸ hc)
  unfold replaceRun replaceWhole
  simp only [hname]
  rfl

theorem joinBytes_replaceFrom (cs before : List Char) (hbefore : before.head?.any isRunChar = false) :
    joinBytes (namePattern.replaceFrom (nameValue value?) 0 before cs) = bytesFrom value? [] cs := by
  induction cs using runs_induction generalizing before with
  | hrun run hrun =>
    have hjoin := @joinBytes_run value? before run [] hbefore hrun rfl
    rw [append_nil] at hjoin
    rw [hjoin, bytesFrom_of_run hrun, replaceRun_eq_whole]
    exact ByteArray.append_empty
  | hstop run c cs hrun hc ih =>
    have hcut : bytesFrom value? [] (run ++ c :: cs) = _ := bytesFrom_append hc
    rw [joinBytes_run before run (c :: cs) hbefore hrun hc,
      Pattern.replaceFrom_of_none _ _ (length_stop hc _ _), Text.joinBytes_cons,
      ih (c :: (run.reverse ++ before)) hc, hcut, bytesFrom_of_run hrun, bytesFrom_cons_stop hc,
      replaceRun_eq_whole]
    rfl

/-! ## Whole runs -/

/-- A run is whole. -/
theorem joinBytes_splitBy_run (hrun : ∀ c ∈ run, isRunChar c) (pieces : List ByteArray) :
    joinBytes ((run.splitBy fun c d => isRunChar c && isRunChar d).map (replaceWhole value?) ++
      pieces) = replaceWhole value? run ++ joinBytes pieces := by
  cases run with
  | nil => exact ByteArray.empty_append.symm
  | cons c run =>
    have hchain : (c :: run).IsChain fun c d => (isRunChar c && isRunChar d) = true := by
      apply List.Pairwise.isChain
      apply pairwise_of_forall_mem_list
      intro a ha b hb
      rw [hrun a ha, hrun b hb]
      rfl
    rw [splitBy_of_isChain (cons_ne_nil _ _) hchain, map_singleton,
      singleton_append, Text.joinBytes_cons]

theorem splitBy_stop (run cs : List Char) (h : isRunChar c = false) :
    (run ++ c :: cs).splitBy (fun c d => isRunChar c && isRunChar d) =
      run.splitBy (fun c d => isRunChar c && isRunChar d) ++
        [c] :: cs.splitBy fun c d => isRunChar c && isRunChar d := by
  have hbehind : ([c] ++ cs).splitBy (fun c d => isRunChar c && isRunChar d) = _ :=
    splitBy_append (by simp [h])
  rw [splitBy_append_cons cs (by simp [h]), ← singleton_append, hbehind]
  rfl

theorem bytesFrom_eq_wholeRuns (cs : List Char) :
    bytesFrom value? [] cs = joinBytes ((cs.splitBy fun c d => isRunChar c && isRunChar d).map
      (replaceWhole value?)) := by
  induction cs using runs_induction with
  | hrun run hrun =>
    have hwhole := @joinBytes_splitBy_run value? run hrun []
    rw [append_nil] at hwhole
    rw [hwhole, bytesFrom_of_run hrun, replaceRun_eq_whole]
    exact ByteArray.append_empty.symm
  | hstop run c cs hrun hc ih =>
    have hcut : bytesFrom value? [] (run ++ c :: cs) = _ := bytesFrom_append hc
    have hsingle : replaceWhole value? [c] = c.toString.toUTF8 := by
      rw [replaceWhole, if_neg (by simp [isLetter_of_stop hc])]
      rfl
    rw [splitBy_stop run cs hc, map_append, joinBytes_splitBy_run hrun, map_cons,
      Text.joinBytes_cons, ← ih, hsingle, hcut, bytesFrom_of_run hrun, bytesFrom_cons_stop hc,
      replaceRun_eq_whole]
    rfl

end Substitution

open Substitution

/-- One pass over a text replaces its variables. Each of the longest runs of word characters, dots and
dashes that is the name of a variable with a value becomes the value, and everything else stays. That
is what a search for the pattern of names comes to, and what it does on one side of a character that
is in no run does not depend on the other side. -/
theorem substitute_in_one_pass (value? : String → Option ByteArray) (text : String) :
    substitute value? text = joinBytes ((wholeRuns text).map (replaceWhole value?)) ∧
      substitute value? text = namePattern.replaceAll (nameValue value?) text ∧
      ∀ (u v : String) (c : Char), isRunChar c = false →
        substitute value? (u ++ c.toString ++ v) =
          substitute value? u ++ c.toString.toUTF8 ++ substitute value? v := by
  refine ⟨bytesFrom_eq_wholeRuns text.toList, (joinBytes_replaceFrom text.toList [] rfl).symm, ?_⟩
  intro u v c hc
  have hcut : bytesFrom value? [] (u.toList ++ c :: v.toList) = _ := bytesFrom_append hc
  have htext : (u ++ c.toString ++ v).toList = u.toList ++ c :: v.toList := by simp
  rw [substitute, htext, ← bytesFrom, hcut, bytesFrom_cons_stop hc, ByteArray.append_assoc]
  rfl

end Stencil
