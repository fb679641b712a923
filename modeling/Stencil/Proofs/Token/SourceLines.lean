import Stencil.Proofs.Token.Seam

/-!
# Lines

A source is its lines put together, and each line falls into the same clusters as on its own. The
characters of a line tell how wide its margin is and whether the scanner passes over it as blank.
-/
namespace Stencil

open Text (Cluster)
open List

/-- The lines of a text, each with the line break at its end. -/
def linesOf : List Char → List (List Char)
  | [] => []
  | c :: cs =>
    if c = '\n' then [c] :: linesOf cs
    else (c :: (linesOf cs).headD []) :: (linesOf cs).tail

/-- A line that holds more than spaces and a comment. -/
def hasContent (line : List Char) : Bool :=
  let text := line.dropWhile (· = ' ')
  !([[], ['\n'], ['\r', '\n']].contains text || text.head? = some '#')

/-- Lines with a line break at the end of each, the last perhaps without. -/
def AreLines : List (List Char) → Prop
  | [] => True
  | line :: lines =>
    line ≠ [] ∧ '\n' ∉ line.dropLast ∧ (lines = [] ∨ line.getLast? = some '\n') ∧ AreLines lines

variable (cs : List Char)

theorem flatten_linesOf : (linesOf cs).flatten = cs := by
  induction cs with
  | nil => rfl
  | cons c cs ih =>
    rw [linesOf]
    split
    · rw [flatten_cons, ih]
      rfl
    · conv_rhs => rw [← ih]
      cases linesOf cs <;> rfl

theorem areLines_linesOf : AreLines (linesOf cs) := by
  induction cs with
  | nil => trivial
  | cons c cs ih =>
    rw [linesOf]
    split
    · next hc => exact ⟨cons_ne_nil _ _, not_mem_nil, .inr (by rw [hc]; rfl), ih⟩
    · next hc =>
      cases hlines : linesOf cs with
      | nil => exact ⟨cons_ne_nil _ _, not_mem_nil, .inl rfl, trivial⟩
      | cons line lines =>
        rw [hlines] at ih
        obtain ⟨hne, hfeed, hend, hlater⟩ := ih
        refine ⟨cons_ne_nil _ _, ?_, ?_, hlater⟩
        · rw [headD_cons, dropLast_cons_of_ne_nil hne, mem_cons, not_or]
          exact ⟨fun heq => hc heq.symm, hfeed⟩
        · rw [headD_cons, getLast?_cons_of_ne_nil hne]
          exact hend

/-! ## Clusters of a line -/

theorem Text.Cluster.mem_chars_of_lead {k : Cluster} (h : k.lead = '\n') : '\n' ∈ k.chars := by
  unfold Cluster.lead at h
  split at h
  · next hchars => simp [hchars]
  · exact mem_cons.mpr (.inl h.symm)

variable {line : List Char}

/-- Only the last cluster of a line is a line break. -/
theorem lead_of_mem_line (h : '\n' ∉ line.dropLast) :
    ∀ k ∈ (Cluster.segmentFrom .other line).dropLast, k.lead ≠ '\n' := by
  intro k hk hlead
  have hchars := Cluster.chars_segmentFrom .other line
  generalize Cluster.segmentFrom .other line = ks at hk hchars
  have hne : ks ≠ [] := by
    rintro rfl
    cases hk
  have hlast : (ks.getLast hne).chars ≠ [] := cons_ne_nil _ _
  rw [← dropLast_append_getLast hne, flatMap_append, flatMap_singleton] at hchars
  apply h
  rw [← hchars, dropLast_append_of_ne_nil hlast]
  exact mem_append_left _ (mem_flatMap.mpr ⟨k, hk, Cluster.mem_chars_of_lead hlead⟩)

/-- A line falls into the same clusters as on its own. -/
theorem segmentFrom_line {rest : List Char} (h : rest = [] ∨ line.getLast? = some '\n') :
    Cluster.segmentFrom .other (line ++ rest) =
      Cluster.segmentFrom .other line ++ Cluster.segmentFrom .other rest := by
  rcases h with rfl | hfeed
  · rw [append_nil]
    exact (append_nil _).symm
  · exact Cluster.segmentFrom_lineFeed hfeed rest

theorem endsLine_line (h : line.getLast? = some '\n') :
    Lexeme.EndsLine (Cluster.segmentFrom .other line) := by
  rw [← String.toList_ofList (l := line)] at h ⊢
  exact endsLine_segment h

/-- Spaces in front of a space are clusters of their own. -/
theorem segmentFrom_spaces (width : Nat) (cs : List Char) :
    Cluster.segmentFrom .other (replicate width ' ' ++ ' ' :: cs) =
      replicate width ⟨' ', []⟩ ++ Cluster.segmentFrom .other (' ' :: cs) := by
  induction width with
  | zero => rfl
  | succ width ih =>
    rw [replicate_succ, replicate_succ, cons_append, cons_append, ← ih]
    apply (Cluster.segmentFrom_space _).resolve_right
    rintro ⟨c, rest, joined, ks, hrest, hjoins, -⟩
    have hc : c = ' ' := by
      cases width with
      | zero => exact (cons.inj hrest).1.symm
      | succ width => exact (cons.inj hrest).1.symm
    rw [hc] at hjoins
    cases hjoins

namespace Lexeme

/-- In a comment the rest of the line counts. -/
theorem blankLinesFrom_comment {ks : List Cluster} (h : ∀ k ∈ ks.dropLast, k.lead ≠ '\n')
    (read : Nat) : blankLinesFrom read true ks = read + ks.length := by
  induction ks generalizing read with
  | nil => rfl
  | cons k ks ih =>
    rw [blankLinesFrom, length_cons]
    cases ks with
    | nil => simp [blankLinesFrom]
    | cons j js =>
      rw [dropLast_cons_cons, forall_mem_cons] at h
      rw [if_neg h.1, if_pos rfl, ih h.2]
      omega

/-- A cluster that keeps its line from being blank. -/
def IsContent (k : Cluster) : Prop := k.lead ≠ '\n' ∧ k ≠ ⟨' ', []⟩ ∧ k.first ≠ '#'

theorem blankLinesFrom_of_isContent {k : Cluster} (h : IsContent k) (read : Nat)
    (ks : List Cluster) : blankLinesFrom read false (k :: ks) = 0 := by
  rw [blankLinesFrom, if_neg h.1, if_neg Bool.false_ne_true, if_neg h.2.1, if_neg h.2.2]

variable {c : Char}

theorem hasContent_cons (hc : c ≠ ' ') (cs : List Char) :
    hasContent (c :: cs) ↔ c :: cs ≠ ['\n'] ∧ c :: cs ≠ ['\r', '\n'] ∧ c ≠ '#' := by
  rw [hasContent, dropWhile_cons_of_neg (by simpa using hc)]
  simp [and_assoc, imp_iff_not_or]

theorem blankLinesFrom_text {cs : List Char} (hc : c ≠ ' ') (h : '\n' ∉ (c :: cs).dropLast)
    (read : Nat) :
    blankLinesFrom read false (Cluster.segmentFrom .other (c :: cs)) =
      if hasContent (c :: cs) then 0
      else read + (Cluster.segmentFrom .other (c :: cs)).length := by
  obtain ⟨joined, ks, hks⟩ := Cluster.segmentFrom_ne_nil .other c cs
  have hbreaks := lead_of_mem_line h
  rw [hks] at hbreaks
  by_cases hlead : Cluster.lead ⟨c, joined⟩ = '\n'
  · -- The line break ends the line, so there is nothing else in it.
    have hlast : ks = [] := by
      by_contra hne
      rw [dropLast_cons_of_ne_nil hne, forall_mem_cons] at hbreaks
      exact hbreaks.1 hlead
    have hchars := Cluster.chars_segmentFrom .other (c :: cs)
    rw [hks, hlast, flatMap_singleton] at hchars
    have hblank : hasContent (c :: cs) = false := by
      unfold Cluster.lead at hlead
      split at hlead
      · next hreturn =>
        rw [← hchars, hreturn]
        rfl
      · have hline : c = '\n' := hlead
        cases cs with
        | nil =>
          rw [hline]
          rfl
        | cons d ds =>
          rw [hline] at h
          exact absurd mem_cons_self h
    rw [hks, hlast, hblank, blankLinesFrom, if_pos hlead]
    rfl
  have hspace : (⟨c, joined⟩ : Cluster) ≠ ⟨' ', []⟩ := fun heq => hc (congrArg Cluster.first heq)
  by_cases hhash : c = '#'
  · have hblank : hasContent (c :: cs) = false := by
      rw [← Bool.not_eq_true, hasContent_cons hc]
      exact fun hcontent => hcontent.2.2 hhash
    have hcomment : ∀ k ∈ ks.dropLast, k.lead ≠ '\n' := by
      intro k hk
      cases ks with
      | nil => cases hk
      | cons j js => exact hbreaks k (mem_cons_of_mem _ hk)
    rw [hks, hblank, blankLinesFrom, if_neg hlead, if_neg Bool.false_ne_true, if_neg hspace,
      if_pos hhash, blankLinesFrom_comment hcomment, if_neg Bool.false_ne_true, length_cons]
    omega
  · have hcontent : hasContent (c :: cs) := by
      rw [hasContent_cons hc]
      refine ⟨?_, ?_, hhash⟩
      · rintro ⟨⟩
        cases hks
        exact hlead rfl
      · rintro ⟨⟩
        cases hks
        exact hlead rfl
    rw [hks, hcontent, if_pos rfl]
    exact blankLinesFrom_of_isContent ⟨hlead, hspace, hhash⟩ read ks

/-- A line counts as blank in whole or not at all. -/
theorem blankLinesFrom_line (h : '\n' ∉ line.dropLast) (read : Nat) :
    blankLinesFrom read false (Cluster.segmentFrom .other line) =
      if hasContent line then 0 else read + (Cluster.segmentFrom .other line).length := by
  induction line generalizing read with
  | nil => rfl
  | cons c cs ih =>
    have hlater : '\n' ∉ cs.dropLast := by
      intro hmem
      apply h
      cases cs with
      | nil => cases hmem
      | cons d ds => exact mem_cons_of_mem _ hmem
    by_cases hc : c = ' '
    · subst hc
      have hspaces : hasContent (' ' :: cs) = hasContent cs := rfl
      rw [hspaces]
      rcases Cluster.segmentFrom_space cs with hks | ⟨d, rest, joined, ks, rfl, hjoins, hks⟩
      · rw [hks, blankLinesFrom, if_neg (by decide), if_neg Bool.false_ne_true, if_pos rfl,
          ih hlater, length_cons]
        split <;> omega
      · have hnot : ∀ c, Text.BreakContext.other.joins (.of c) = false → d ≠ c := by
          rintro c hapart rfl
          rw [hapart] at hjoins
          cases hjoins
        have hcontent : hasContent (d :: rest) := by
          rw [hasContent_cons (hnot _ rfl)]
          refine ⟨fun heq => hnot '\n' rfl (cons.inj heq).1, fun heq => ?_, hnot _ rfl⟩
          exact hnot '\r' rfl (cons.inj heq).1
        rw [hks, hcontent, if_pos rfl]
        apply blankLinesFrom_of_isContent
        have hreturn : ' ' ≠ '\r' := by decide
        refine ⟨?_, by simp, (by decide : ' ' ≠ '#')⟩
        rw [Cluster.lead_of_first (k := ⟨' ', d :: joined⟩) hreturn]
        exact (by decide : ' ' ≠ '\n')
    · exact blankLinesFrom_text hc h read

theorem margin_line :
    (margin (Cluster.segmentFrom .other cs)).1 = (cs.takeWhile (· = ' ')).length := by
  induction cs with
  | nil => rfl
  | cons c cs ih =>
    by_cases hc : c = ' '
    · subst hc
      rcases Cluster.segmentFrom_space cs with hks | ⟨d, rest, joined, ks, rfl, hjoins, hks⟩
      · rw [hks, margin, if_pos rfl, takeWhile_cons_of_pos rfl, length_cons, ← ih]
      · have hd : d ≠ ' ' := by
          rintro rfl
          cases hjoins
        rw [hks, margin, if_pos rfl, takeWhile_cons_of_pos rfl,
          takeWhile_cons_of_neg (by simpa using hd)]
        rfl
    · obtain ⟨joined, ks, hks⟩ := Cluster.segmentFrom_ne_nil .other c cs
      rw [hks, margin, if_neg hc, takeWhile_cons_of_neg (by simpa using hc)]
      rfl

/-- Whether a line is blank does not depend on the lines after it. -/
theorem blankLines_line {rest : List Char} (hne : line ≠ []) (hfeed : '\n' ∉ line.dropLast)
    (hend : rest = [] ∨ line.getLast? = some '\n') :
    blankLines (Cluster.segmentFrom .other (line ++ rest)) = 0 ↔ hasContent line := by
  have hline := blankLinesFrom_line hfeed 0
  have hpos : 0 < (Cluster.segmentFrom .other line).length := by
    obtain ⟨c, cs, rfl⟩ := exists_cons_of_ne_nil hne
    obtain ⟨joined, ks, hks⟩ := Cluster.segmentFrom_ne_nil .other c cs
    rw [hks]
    exact Nat.succ_pos _
  have hall : blankLines (Cluster.segmentFrom .other (line ++ rest)) = 0 ↔
      blankLines (Cluster.segmentFrom .other line) = 0 := by
    rcases hend with rfl | hend
    · rw [append_nil]
    rw [Cluster.segmentFrom_lineFeed hend, blankLines]
    split at hline
    · rw [blankLinesFrom_append_of_lt (endsLine_line hend) (by omega)]
    · rw [blankLinesFrom_append_of_eq (endsLine_line hend) hline]
      omega
  rw [hall, blankLines, hline]
  cases hasContent line with
  | true => simp
  | false =>
    rw [if_neg Bool.false_ne_true, Nat.zero_add]
    simp [Nat.ne_of_gt hpos]

end Lexeme
end Stencil
