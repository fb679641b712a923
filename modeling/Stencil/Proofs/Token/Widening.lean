import Mathlib.Order.WellFounded
import Stencil.Proofs.Token.SourceLines

/-!
# Lines with other margins

The scanner does the same on clusters in which every line has another margin, if a wider margin
stays wider and no margin stays none. It compares margins only with each other and with the first
column. Blank lines, and lines that start inside brackets or a string, have no margin that counts.
-/
namespace Stencil

open Text (Cluster)
open List Lexeme Option Nesting

/-! ## Other margins -/

namespace Lexeme

/-- The spaces that a line gets in addition, in front of its clusters. -/
def growth (f : Nat → Nat) (n : Option Nesting) (start : Bool) (ks : List Cluster) : List Cluster :=
  if start && !n.any Nesting.isOpen && blankLines ks = 0 then
    List.replicate (f (margin ks).1 - (margin ks).1) ⟨' ', []⟩
  else []

/-- The clusters with a margin `f w` for each margin `w`. What is open in front of them and whether
a line starts with them is told. -/
def widenFrom (f : Nat → Nat) (n : Option Nesting) (start : Bool) : List Cluster → List Cluster
  | [] => []
  | k :: ks =>
    growth f n start (k :: ks) ++ k :: widenFrom f (n.bind (·.next k)) (k.lead = '\n') ks

/-- Whether a line starts after clusters. -/
def startsLine (start : Bool) (ks : List Cluster) : Bool :=
  ks.foldl (fun _ k => k.lead = '\n') start

variable {f : Nat → Nat} {n : Option Nesting} {opened : List Bracket} {comment start : Bool}
  {k : Cluster} {ks rest : List Cluster} {read : Nat}

theorem growth_inside (f : Nat → Nat) (n : Option Nesting) (ks : List Cluster) :
    growth f n false ks = [] := rfl

theorem growth_of_isOpen {n : Nesting} (h : n.isOpen) (f : Nat → Nat) (start : Bool)
    (ks : List Cluster) : growth f (some n) start ks = [] := by
  rw [growth, any_some, h]
  simp

theorem growth_of_bracket (hopen : opened ≠ []) (f : Nat → Nat) (zone : Zone) (start : Bool)
    (ks : List Cluster) : growth f (some ⟨opened, zone⟩) start ks = [] := by
  apply growth_of_isOpen
  rw [isOpen, isEmpty_eq_false_iff.mpr hopen]
  rfl

theorem growth_of_blank (h : blankLines ks ≠ 0) (f : Nat → Nat) (n : Option Nesting)
    (start : Bool) : growth f n start ks = [] := by
  rw [growth, decide_eq_false h, Bool.and_false, if_neg Bool.false_ne_true]

theorem growth_of_margin (hf : f 0 = 0) (h : (margin ks).1 = 0) (n : Option Nesting)
    (start : Bool) : growth f n start ks = [] := by
  rw [growth, h, hf]
  split <;> rfl

theorem widenFrom_eq (f : Nat → Nat) (n : Option Nesting) (start : Bool) (ks : List Cluster)
    (hne : ks ≠ []) : widenFrom f n start ks = growth f n start ks ++ widenFrom f n false ks := by
  obtain ⟨k, rest, rfl⟩ := exists_cons_of_ne_nil hne
  rw [widenFrom, widenFrom, growth_inside, nil_append]

/-- Where nothing is added, it does not matter whether a line starts. -/
theorem widenFrom_of_growth (h : growth f n start ks = []) :
    widenFrom f n start ks = widenFrom f n false ks := by
  cases ks with
  | nil => rfl
  | cons k ks => rw [widenFrom_eq f n start _ (cons_ne_nil _ _), h, nil_append]

theorem bind_after_nil (n : Option Nesting) : n.bind (·.after []) = n := by
  cases n <;> rfl

theorem bind_after_cons (n : Option Nesting) (k : Cluster) (ks : List Cluster) :
    n.bind (·.after (k :: ks)) = (n.bind (·.next k)).bind (·.after ks) := by
  cases n with
  | none => rfl
  | some n => exact foldlM_cons

/-- Within a line nothing is added. -/
theorem widenFrom_append (hks : ∀ k ∈ ks.dropLast, k.lead ≠ '\n') :
    widenFrom f n false (ks ++ rest) =
      ks ++ widenFrom f (n.bind (·.after ks)) (startsLine false ks) rest := by
  induction ks generalizing n with
  | nil =>
    rw [bind_after_nil]
    rfl
  | cons k ks ih =>
    rw [cons_append, widenFrom, growth_inside, nil_append, bind_after_cons]
    cases ks with
    | nil =>
      rw [bind_after_nil]
      rfl
    | cons j js =>
      rw [dropLast_cons_cons, forall_mem_cons] at hks
      rw [decide_eq_false hks.1, ih hks.2]
      rfl

/-- While something is open nothing is added. -/
theorem widenFrom_open {n : Nesting}
    (h : ∀ init, init <+: ks → ∃ m, n.after init = some m ∧ m.isOpen) (start : Bool) :
    widenFrom f (some n) start (ks ++ rest) =
      ks ++ widenFrom f (n.after ks) (startsLine start ks) rest := by
  induction ks generalizing n start with
  | nil => rfl
  | cons k ks ih =>
    obtain ⟨_, ⟨⟩, hopen⟩ := h [] nil_prefix
    obtain ⟨m, hm, -⟩ := h [k] (prefix_append [k] ks)
    have hnext : n.next k = some m := by
      rw [← hm, Nesting.after, foldlM_cons]
      exact (bind_pure _).symm
    have hlater : ∀ init, init <+: ks → ∃ m', m.after init = some m' ∧ m'.isOpen := by
      intro init hinit
      obtain ⟨m', hm', hopen'⟩ := h (k :: init) (cons_prefix_cons.mpr ⟨rfl, hinit⟩)
      exact ⟨m', (after_cons hnext init).symm.trans hm', hopen'⟩
    rw [cons_append, widenFrom, growth_of_isOpen hopen, nil_append, bind_some,
      hnext, ih hlater, after_cons hnext]
    rfl

theorem isTrivia_of_append {js : List Cluster} (h : isTrivia comment (ks ++ js)) :
    isTrivia comment ks := by
  induction ks generalizing comment with
  | nil => rfl
  | cons k ks ih =>
    rw [cons_append, isTrivia] at h
    rw [isTrivia]
    split
    · next hk => exact ih (by rwa [if_pos hk] at h)
    · next hk =>
      rw [if_neg hk] at h
      split
      · next hcomment => exact ih (by rwa [if_pos hcomment] at h)
      · next hcomment =>
        rw [if_neg hcomment, Bool.and_eq_true] at h
        rw [h.1, ih h.2]
        rfl

/-- Inside brackets trivia stay as they are. -/
theorem widenFrom_trivia (hopen : opened ≠ []) (h : isTrivia false ks) :
    widenFrom f (some ⟨opened, .plain⟩) start (ks ++ rest) =
      ks ++ widenFrom f (some ⟨opened, .between (inComment false ks)⟩)
        (startsLine start ks) rest := by
  rw [← after_trivia h opened]
  apply widenFrom_open
  rintro init ⟨js, rfl⟩
  refine ⟨_, after_trivia (isTrivia_of_append h) opened, ?_⟩
  rw [isOpen, isEmpty_eq_false_iff.mpr hopen]
  rfl

theorem widenFrom_cons_string {zone : Zone} (h : zone.isString) (f : Nat → Nat)
    (opened : List Bracket) (start : Bool) (k : Cluster) (ks : List Cluster) :
    widenFrom f (some ⟨opened, zone⟩) start (k :: ks) =
      k :: widenFrom f (some ⟨opened, zone.next k⟩) (k.lead = '\n') ks := by
  have hopen : Nesting.isOpen ⟨opened, zone⟩ := by rw [Nesting.isOpen, h, Bool.or_true]
  have hzone : zone ≠ .plain := by
    rintro rfl
    cases h
  rw [widenFrom, growth_of_isOpen hopen, nil_append, bind_some, next_of_ne _ _ hzone]

/-- A string stays as it is. -/
theorem widenFrom_string {quote : Char} (hquote : quote ≠ '\n') {length : Nat}
    (h : stringRest quote ks = some length) (f : Nat → Nat) (opened : List Bracket) (start : Bool) :
    widenFrom f (some ⟨opened, .string quote⟩) start ks =
      ks.take length ++ widenFrom f (some ⟨opened, .plain⟩) false (ks.drop length) := by
  obtain ⟨front, more, rfl, hfront, rfl⟩ := stringRest_eq_some.mp h
  rw [take_left, drop_left]
  clear h
  induction hfront generalizing start with
  | mark hk =>
    rw [singleton_append, widenFrom_cons_string rfl, Zone.next, if_pos hk, hk,
      decide_eq_false hquote]
    rfl
  | escape hk hslash _ ih =>
    rw [cons_append, widenFrom_cons_string rfl, Zone.next, if_neg hk, if_pos hslash,
      cons_append, widenFrom_cons_string rfl, Zone.next, ih]
    rfl
  | other hk hslash _ ih =>
    rw [cons_append, widenFrom_cons_string rfl, Zone.next, if_neg hk, if_neg hslash, ih]
    rfl

/-- Blank lines stay as they are. -/
theorem widenFrom_blank (hcomment : comment = true → read ≠ 0)
    (h : blankLinesFrom read comment (ks ++ rest) = read + ks.length) :
    widenFrom f n (read = 0) (ks ++ rest) =
      ks ++ widenFrom f (n.bind (·.after ks)) (startsLine (read = 0) ks) rest := by
  induction ks generalizing read comment n with
  | nil =>
    rw [bind_after_nil]
    rfl
  | cons k ks ih =>
    have hnone : growth f n (read = 0) (k :: (ks ++ rest)) = [] := by
      by_cases hread : read = 0
      · have hfalse : comment = false := by
          rw [← Bool.not_eq_true]
          exact fun htrue => hcomment htrue hread
        subst hread hfalse
        apply growth_of_blank
        rw [blankLines, ← cons_append, h]
        simp
      · rw [decide_eq_false hread]
        rfl
    rw [cons_append, widenFrom, hnone, nil_append, bind_after_cons]
    have hgoOn : ∀ read' comment', (comment' = true → read' ≠ 0) →
        blankLinesFrom read' comment' (ks ++ rest) = read' + ks.length →
        decide (k.lead = '\n') = decide (read' = 0) →
        k :: widenFrom f (n.bind (·.next k)) (k.lead = '\n') (ks ++ rest) =
          k :: ks ++ widenFrom f ((n.bind (·.next k)).bind (·.after ks))
            (startsLine (read = 0) (k :: ks)) rest := by
      intro read' comment' hcomment' hcount hstart
      rw [hstart, ih hcomment' hcount, startsLine, startsLine, foldl_cons, hstart]
      rfl
    rw [cons_append, blankLinesFrom, length_cons] at h
    by_cases hk : k.lead = '\n'
    · rw [if_pos hk] at h
      exact hgoOn 0 false Bool.noConfusion (by omega) (by simp [hk])
    · rw [if_neg hk] at h
      have hstart : decide (k.lead = '\n') = decide (read + 1 = 0) := by simp [hk]
      split at h
      · exact hgoOn (read + 1) true (fun _ => Nat.succ_ne_zero _) (by omega) hstart
      split at h
      · exact hgoOn (read + 1) false Bool.noConfusion (by omega) hstart
      split at h
      · exact hgoOn (read + 1) true (fun _ => Nat.succ_ne_zero _) (by omega) hstart
      · omega

theorem growth_between (f : Nat → Nat) (opened : List Bracket) (comment start : Bool)
    (ks : List Cluster) :
    growth f (some ⟨opened, .between comment⟩) start ks =
      growth f (some ⟨opened, .plain⟩) start ks := by
  cases comment <;> rfl

/-- At the end of its line a comment is over. -/
theorem widenFrom_between (h : Nesting.Lasts comment ks) (f : Nat → Nat) (opened : List Bracket)
    (start : Bool) :
    widenFrom f (some ⟨opened, .between comment⟩) start ks =
      widenFrom f (some ⟨opened, .plain⟩) start ks := by
  cases ks with
  | nil => rfl
  | cons k ks =>
    cases comment with
    | false => rfl
    | true =>
      have hnext := next_lineBreak (h rfl k rfl) opened
      rw [widenFrom, widenFrom, bind_some, bind_some, hnext true, growth_between]
      exact congrArg (fun n => _ ++ k :: widenFrom f n _ ks) (hnext false).symm

/-! ## Lengths -/

/-- Up to the end of the line the clusters are the same. -/
theorem abreast_widenFrom (f : Nat → Nat) (n : Option Nesting) (ks : List Cluster) :
    Abreast ks (widenFrom f n false ks) := by
  induction ks generalizing n with
  | nil => exact .nil
  | cons k ks ih =>
    rw [widenFrom, growth_inside, nil_append]
    by_cases hk : k.lead = '\n'
    · exact .line hk hk _ _
    · rw [decide_eq_false hk]
      exact .cons hk (ih _)

theorem margin_replicate (width : Nat) (ks : List Cluster) :
    margin (replicate width ⟨' ', []⟩ ++ ks) = (width + (margin ks).1, (margin ks).2) := by
  induction width with
  | zero => rw [replicate_zero, nil_append, Nat.zero_add]
  | succ width ih =>
    rw [replicate_succ, cons_append, margin, if_pos rfl, ih, Nat.add_right_comm]

theorem gapFrom_widenFrom (hstart : opened = [] → start = false) (comment : Bool)
    (ks : List Cluster) :
    gapFrom (!opened.isEmpty) comment (widenFrom f (some ⟨opened, .between comment⟩) start ks) =
      gapFrom (!opened.isEmpty) comment ks := by
  induction ks generalizing comment start with
  | nil => rfl
  | cons k ks ih =>
    have hnone : growth f (some ⟨opened, .between comment⟩) start (k :: ks) = [] := by
      by_cases hopen : opened = []
      · rw [hstart hopen]
        rfl
      · exact growth_of_bracket hopen f _ _ _
    rw [widenFrom, hnone, nil_append, bind_some, gapFrom, gapFrom]
    by_cases hk : k.lead = '\n'
    · rw [if_pos hk, if_pos hk, next_lineBreak hk]
      by_cases hopen : opened = []
      · rw [hopen]
        rfl
      · rw [isEmpty_eq_false_iff.mpr hopen] at ih ⊢
        exact congrArg (1 + ·) (ih (fun heq => absurd heq hopen) false)
    · have hlater : ∀ now, Nesting.next ⟨opened, .between comment⟩ k =
            some ⟨opened, .between now⟩ →
          1 + gapFrom (!opened.isEmpty) now (widenFrom f
            (Nesting.next ⟨opened, .between comment⟩ k) (k.lead = '\n') ks) =
            1 + gapFrom (!opened.isEmpty) now ks := by
        intro now hnext
        rw [hnext, decide_eq_false hk, ih (fun _ => rfl)]
      rw [if_neg hk, if_neg hk]
      cases comment with
      | true => exact hlater true (next_comment hk opened)
      | false =>
        rw [if_neg Bool.false_ne_true, if_neg Bool.false_ne_true]
        split
        · next hblank =>
          refine hlater false (next_of_isInert ?_ opened)
          exact @isInert_of k.lead (fun c => c = ' ' || c = '\t' || c = '\r') hblank (by decide)
        split
        · next hhash => exact hlater true (next_hash hhash opened)
        · rfl

theorem le_blankLinesFrom (read : Nat) (ks : List Cluster) :
    read ≤ blankLinesFrom read true ks := by
  induction ks generalizing read with
  | nil => exact Nat.le_refl read
  | cons k ks ih =>
    rw [blankLinesFrom]
    split
    · omega
    · rw [if_pos rfl]
      exact Nat.le_of_succ_le (ih (read + 1))

/-- In a line that is not blank something comes after the spaces. -/
theorem exists_content (hsome : ks ≠ [] ∨ 0 < read) (h : blankLinesFrom read false ks = 0) :
    ∃ width k rest, ks = replicate width ⟨' ', []⟩ ++ k :: rest ∧ IsContent k := by
  induction ks generalizing read with
  | nil =>
    have hread : read = 0 := h
    rcases hsome with hne | hpos
    · exact absurd rfl hne
    · omega
  | cons k ks ih =>
    rw [blankLinesFrom] at h
    split at h
    · omega
    next hline =>
    rw [if_neg Bool.false_ne_true] at h
    split at h
    · next hspace =>
      obtain ⟨width, j, rest, rfl, hj⟩ := ih (.inr (Nat.succ_pos read)) h
      exact ⟨width + 1, j, rest, by rw [hspace]; rfl, hj⟩
    next hspace =>
    split at h
    · have := le_blankLinesFrom (read + 1) ks
      omega
    · next hhash => exact ⟨0, k, ks, rfl, hline, hspace, hhash⟩

theorem blankLinesFrom_content (hk : IsContent k) (width read : Nat) (rest : List Cluster) :
    blankLinesFrom read false (replicate width ⟨' ', []⟩ ++ k :: rest) = 0 := by
  induction width generalizing read with
  | zero => exact blankLinesFrom_of_isContent hk read rest
  | succ width ih =>
    rw [replicate_succ, cons_append, blankLinesFrom, if_neg (by decide),
      if_neg Bool.false_ne_true, if_pos rfl, ih]

theorem exists_growth (f : Nat → Nat) (n : Option Nesting) (start : Bool) (ks : List Cluster) :
    ∃ width, growth f n start ks = replicate width ⟨' ', []⟩ := by
  rw [growth]
  split
  · exact ⟨_, rfl⟩
  · exact ⟨0, rfl⟩

theorem blankLines_widenFrom_of_zero (h : blankLines ks = 0) (f : Nat → Nat) (n : Option Nesting)
    (start : Bool) : blankLines (widenFrom f n start ks) = 0 := by
  by_cases hne : ks = []
  · rw [hne]
    rfl
  obtain ⟨more, hmore⟩ := exists_growth f n start ks
  obtain ⟨width, k, rest, hks, hk⟩ := exists_content (.inl hne) h
  have hspaces : ∀ j ∈ (replicate width (⟨' ', []⟩ : Cluster) ++ [k]).dropLast,
      j.lead ≠ '\n' := by
    intro j hj
    rw [dropLast_concat] at hj
    rw [eq_of_mem_replicate hj]
    decide
  have hline := @widenFrom_append f n _ rest hspaces
  rw [append_assoc, singleton_append, ← hks] at hline
  rw [widenFrom_eq f n start ks hne, hmore, hline, append_assoc, ← append_assoc,
    replicate_append_replicate]
  exact blankLinesFrom_content hk _ 0 _

/-- There are as many blank lines in front as before. -/
theorem blankLines_widenFrom (f : Nat → Nat) (n : Option Nesting) (ks : List Cluster) :
    blankLines (widenFrom f n true ks) = blankLines ks := by
  rcases blankLinesFrom_cases 0 false ks with hzero | ⟨lines, rest, rfl, hcount, -, hrest⟩
  · exact (blankLines_widenFrom_of_zero hzero f n true).trans hzero.symm
  have hblank := @widenFrom_blank f n false _ _ 0 Bool.noConfusion hcount
  rw [decide_eq_true rfl] at hblank
  rw [hblank]
  rcases hrest with rfl | ⟨hzero, init, k, rfl, hk⟩
  · rfl
  · have hline : EndsLine (init ++ [k]) := ⟨init, k, rfl, hk⟩
    have hall : blankLinesFrom 0 false (init ++ [k]) = 0 + (init ++ [k]).length := by
      refine Nat.le_antisymm (blankLinesFrom_le _ _ _) (Nat.le_of_not_lt fun hlt => ?_)
      rw [blankLinesFrom_append_of_lt hline hlt] at hcount
      omega
    change blankLinesFrom 0 false _ = blankLinesFrom 0 false _
    rw [hcount, blankLinesFrom_append_of_eq hline hall, blankLines_widenFrom_of_zero hzero,
      Nat.add_zero]

/-! ## Places -/

theorem startsLine_of_ne_nil (hne : ks ≠ []) (start start' : Bool) :
    startsLine start ks = startsLine start' ks := by
  obtain ⟨k, rest, rfl⟩ := exists_cons_of_ne_nil hne
  rfl

theorem startsLine_of_endsInside (h : EndsInside ks) (start : Bool) :
    startsLine start ks = false := by
  obtain ⟨init, last, rfl, hlast⟩ := h
  rw [startsLine, foldl_append, foldl_cons, foldl_nil, decide_eq_false hlast]

theorem startsLine_of_endsLine (h : EndsLine ks) (start : Bool) : startsLine start ks := by
  obtain ⟨init, last, rfl, hlast⟩ := h
  rw [startsLine, foldl_append, foldl_cons, foldl_nil, decide_eq_true hlast]

/-- From a place where nothing is added, up to the end of its line, nothing is. -/
theorem widenFrom_level (hlevel : growth f n start (ks ++ rest) = [])
    (hks : ∀ k ∈ ks.dropLast, k.lead ≠ '\n') :
    widenFrom f n start (ks ++ rest) =
      ks ++ widenFrom f (n.bind (·.after ks)) (startsLine start ks) rest := by
  by_cases hne : ks = []
  · rw [hne, bind_after_nil]
    rfl
  · rw [widenFrom_of_growth hlevel, widenFrom_append hks, startsLine_of_ne_nil hne false]

theorem growth_level (hlevel : growth f n start (ks ++ rest) = [])
    (hks : ∀ k ∈ ks, k.lead ≠ '\n') :
    growth f (n.bind (·.after ks)) (startsLine start ks) rest = [] := by
  by_cases hne : ks = []
  · rw [hne] at hlevel ⊢
    rwa [bind_after_nil]
  · rw [startsLine_of_endsInside (endsInside_of_forall hne hks)]
    rfl

/-- Outside brackets a gap ends before its line does. -/
theorem lead_of_mem_gap (h : k ∈ ks.take (gapFrom false comment ks)) : k.lead ≠ '\n' := by
  induction ks generalizing comment with
  | nil => simp at h
  | cons j ks ih =>
    rw [gapFrom] at h
    by_cases hj : j.lead = '\n'
    · rw [if_pos hj, if_neg Bool.false_ne_true] at h
      simp at h
    · have hstep : ∀ now, k ∈ (j :: ks).take (1 + gapFrom false now ks) → k.lead ≠ '\n' := by
        intro now hmem
        rw [Nat.add_comm, take_succ_cons, mem_cons] at hmem
        rcases hmem with rfl | hlater
        · exact hj
        · exact ih hlater
      rw [if_neg hj] at h
      split at h
      · exact hstep _ h
      split at h
      · exact hstep _ h
      split at h
      · exact hstep _ h
      · simp at h

end Lexeme

namespace Cursor

open Lexeme

variable {f : Nat → Nat} {opened later : List Bracket} {c c' : Cursor} {j : Nat}

theorem startsLine_skip (hpos : 1 ≤ c.column) (n : Nat) :
    decide ((c.skip n).column = 1) = startsLine (c.column = 1) (c.rest.take n) := by
  induction n generalizing c with
  | zero => rfl
  | succ n ih =>
    obtain ⟨rest, line, column, offset⟩ := c
    cases rest with
    | nil =>
      have hstep : step ⟨[], line, column, offset⟩ = ⟨[], line, column, offset⟩ := rfl
      rw [skip, hstep, ih hpos]
      simp only [take_nil]
    | cons k ks =>
      rw [skip, step]
      by_cases hk : k.lead = '\n'
      · rw [if_pos hk, ih (Nat.le_refl 1), take_succ_cons, startsLine, startsLine, foldl_cons, hk]
        rfl
      · have hpos : 1 ≤ column := hpos
        have hcolumn : column + 1 ≠ 1 := by omega
        rw [if_neg hk, ih (Nat.le_add_left 1 column), take_succ_cons, startsLine, startsLine,
          foldl_cons, decide_eq_false hk, decide_eq_false hcolumn]

/-- The same place where the lines have other margins. -/
structure Widens (f : Nat → Nat) (opened : List Bracket) (c c' : Cursor) : Prop where
  rest : c'.rest = widenFrom f (some ⟨opened, .plain⟩) (c.column = 1) c.rest
  column : decide (c'.column = 1) = decide (c.column = 1)
  pos : 1 ≤ c.column
  pos' : 1 ≤ c'.column

/-- Nothing is added at the place. -/
def Level (f : Nat → Nat) (opened : List Bracket) (c : Cursor) : Prop :=
  growth f (some ⟨opened, .plain⟩) (c.column = 1) c.rest = []

theorem Widens.rest_of_level (h : c.Widens f opened c') (hlevel : c.Level f opened) :
    c'.rest = widenFrom f (some ⟨opened, .plain⟩) false c.rest :=
  h.rest.trans (widenFrom_of_growth hlevel)

theorem Widens.skip (h : c.Widens f opened c') (hle : j ≤ c.rest.length)
    (hrest : c'.rest = c.rest.take j ++ widenFrom f (some ⟨later, .plain⟩)
      (startsLine (c.column = 1) (c.rest.take j)) (c.rest.drop j)) :
    c'.rest.take j = c.rest.take j ∧ (c.skip j).Widens f later (c'.skip j) := by
  have hlength : (c.rest.take j).length = j := length_take_of_le hle
  have htake : c'.rest.take j = c.rest.take j := by rw [hrest, take_left' hlength]
  refine ⟨htake, ?_, ?_, one_le_column_skip j h.pos, one_le_column_skip j h.pos'⟩
  · rw [rest_skip, rest_skip, startsLine_skip h.pos, hrest, drop_left' hlength]
  · rw [startsLine_skip h.pos, startsLine_skip h.pos', htake, h.column]

/-- Over the clusters of a token that lies within a line. -/
theorem Widens.take (h : c.Widens f opened c') (hlevel : c.Level f opened)
    (hle : j ≤ c.rest.length) (hline : ∀ k ∈ (c.rest.take j).dropLast, k.lead ≠ '\n')
    (hafter : after ⟨opened, .plain⟩ (c.rest.take j) = some ⟨later, .plain⟩) :
    c'.rest.take j = c.rest.take j ∧ (c.skip j).Widens f later (c'.skip j) := by
  refine h.skip hle ?_
  rw [Level, ← take_append_drop j c.rest] at hlevel
  have hwiden := widenFrom_level hlevel hline
  rwa [take_append_drop, ← h.rest, bind_some, hafter] at hwiden

/-- Over a gap, to a place where nothing is added either. -/
theorem Widens.gap (h : c.Widens f opened c') (hlevel : c.Level f opened) :
    Lexeme.gap (!opened.isEmpty) c'.rest = Lexeme.gap (!opened.isEmpty) c.rest ∧
      (c.skip (Lexeme.gap (!opened.isEmpty) c.rest)).Widens f opened
        (c'.skip (Lexeme.gap (!opened.isEmpty) c.rest)) ∧
      (c.skip (Lexeme.gap (!opened.isEmpty) c.rest)).Level f opened := by
  have hsame : Lexeme.gap (!opened.isEmpty) c'.rest = Lexeme.gap (!opened.isEmpty) c.rest := by
    rw [h.rest_of_level hlevel]
    exact gapFrom_widenFrom (fun _ => rfl) false c.rest
  have htrivia := isTrivia_gapFrom (!opened.isEmpty) false c.rest
  have hafter : Nesting.after ⟨opened, .plain⟩ _ = _ := Nesting.after_trivia htrivia opened
  have hlasts : Nesting.Lasts _ _ :=
    @lead_of_inComment_gapFrom c.rest (!opened.isEmpty) false
  have hle := gapFrom_le (!opened.isEmpty) false c.rest
  have hbreak : opened = [] → ∀ k ∈ c.rest.take (gapFrom (!opened.isEmpty) false c.rest),
      k.lead ≠ '\n' := by
    rintro rfl k hk
    exact lead_of_mem_gap hk
  rw [Lexeme.gap] at *
  generalize gapFrom (!opened.isEmpty) false c.rest = g at *
  have hsplit := take_append_drop g c.rest
  have hrest : c'.rest = c.rest.take g ++ widenFrom f (some ⟨opened, .plain⟩)
      (startsLine (c.column = 1) (c.rest.take g)) (c.rest.drop g) := by
    rw [h.rest, ← widenFrom_between hlasts]
    by_cases hopen : opened = []
    · rw [Level, ← hsplit] at hlevel
      have hwiden := widenFrom_level hlevel
        fun k hk => hbreak hopen k (mem_of_mem_dropLast hk)
      rwa [hsplit, Option.bind_some, hafter] at hwiden
    · conv_lhs => rw [← hsplit]
      exact widenFrom_trivia hopen htrivia
  refine ⟨hsame, (h.skip hle hrest).2, ?_⟩
  rw [Level, startsLine_skip h.pos, rest_skip]
  by_cases hopen : opened = []
  · rw [Level, ← hsplit] at hlevel
    have hlater := growth_level hlevel (hbreak hopen)
    rwa [Option.bind_some, hafter, growth_between] at hlater
  · exact growth_of_bracket hopen f _ _ _

/-- Over the blank lines in front. -/
theorem Widens.pastBlank (h : c.Widens f [] c') (hcolumn : c.column = 1) :
    blankLines c'.rest = blankLines c.rest ∧
      (c.skip (blankLines c.rest)).Widens f [] (c'.skip (blankLines c.rest)) := by
  have hrest := h.rest
  rw [decide_eq_true hcolumn] at hrest
  refine ⟨by rw [hrest, blankLines_widenFrom], ?_⟩
  have hle : blankLines c.rest ≤ c.rest.length :=
    Nat.zero_add c.rest.length ▸ blankLinesFrom_le 0 false c.rest
  refine (h.skip hle ?_).2
  obtain ⟨comment, hafter, hlasts⟩ := clears_blankLines [] c.rest
  have hcount : blankLinesFrom 0 false (c.rest.take (blankLines c.rest) ++
      c.rest.drop (blankLines c.rest)) =
        0 + (c.rest.take (blankLines c.rest)).length := by
    rw [take_append_drop, length_take_of_le hle, Nat.zero_add]
    rfl
  have hblank := @widenFrom_blank f (some ⟨[], .plain⟩) false _ _ 0 Bool.noConfusion hcount
  rw [take_append_drop, bind_some, hafter, widenFrom_between hlasts, decide_eq_true rfl] at hblank
  rw [hrest, hblank, decide_eq_true hcolumn]

/-- Over spaces, of which there are more on the other side. -/
theorem Widens.spaces (h : c.Widens f [] c') {more : Nat}
    (hrest : c'.rest = replicate more ⟨' ', []⟩ ++ widenFrom f (some ⟨[], .plain⟩) false c.rest)
    (hsome : c.rest.takeWhile (·.lead = ' ') ≠ []) :
    c.skipSpaces.Widens f [] c'.skipSpaces ∧ c.skipSpaces.Level f [] := by
  obtain ⟨rest, hsplit⟩ := @List.takeWhile_prefix _ c.rest (·.lead = ' ')
  have hspace : ∀ k ∈ c.rest.takeWhile (·.lead = ' '), k.lead = ' ' := by
    intro k hk
    simpa using mem_takeWhile_imp hk
  have hlength : (c'.rest.takeWhile (·.lead = ' ')).length =
      more + (c.rest.takeWhile (·.lead = ' ')).length := by
    rw [hrest, takeWhile_append_of_pos (by simp), length_append, length_replicate]
    exact congrArg (more + ·)
      (@Lexeme.Abreast.run_eq _ _ (· = ' ') (abreast_widenFrom f _ c.rest) (by decide))
  rw [skipSpaces, skipSpaces, hlength]
  generalize c.rest.takeWhile (·.lead = ' ') = spaces at *
  have hinside : ∀ k ∈ spaces, k.lead ≠ '\n' := by
    intro k hk
    rw [hspace k hk]
    decide
  have hafter : after ⟨[], .plain⟩ spaces = some ⟨[], .plain⟩ := by
    refine after_inert (fun k hk => ?_) []
    rw [hspace k hk]
    decide
  have hstart := startsLine_of_endsInside (endsInside_of_forall hsome hinside)
  have happend := @widenFrom_append f (some ⟨[], .plain⟩) spaces rest
    fun k hk => hinside k (mem_of_mem_dropLast hk)
  rw [bind_some, hafter, hstart, hsplit] at happend
  rw [happend, ← append_assoc] at hrest
  have hmore : (replicate more (⟨' ', []⟩ : Cluster) ++ spaces).length =
      more + spaces.length := by
    rw [length_append, length_replicate]
  have hstart' : startsLine (c'.column = 1) (replicate more ⟨' ', []⟩ ++ spaces) = false := by
    rw [startsLine, foldl_append]
    exact hstart _
  have hcolumn : decide ((c.skip spaces.length).column = 1) = false := by
    rw [startsLine_skip h.pos, ← hsplit, take_left, hstart]
  have hcolumn' : decide ((c'.skip (more + spaces.length)).column = 1) = false := by
    rw [startsLine_skip h.pos', hrest, take_left' hmore, hstart']
  refine ⟨⟨?_, ?_, one_le_column_skip _ h.pos, one_le_column_skip _ h.pos'⟩, ?_⟩
  · rw [rest_skip, rest_skip, hcolumn, hrest, drop_left' hmore, ← hsplit, drop_left]
  · rw [hcolumn, hcolumn']
  · rw [Level, hcolumn]
    rfl

/-- Over the margin of a line, which is the new one on the other side. -/
theorem Widens.skipSpaces (hmono : StrictMono f) (hzero : f 0 = 0) (h : c.Widens f [] c')
    (hcolumn : c.column = 1) (hblank : blankLines c.rest = 0) (hne : c.rest ≠ []) :
    margin c'.rest = (f (margin c.rest).1, (margin c.rest).2) ∧
      c.skipSpaces.Widens f [] c'.skipSpaces ∧ c.skipSpaces.Level f [] := by
  have hbelow : (margin c.rest).1 ≤ f (margin c.rest).1 := hmono.le_apply
  have hgrowth : growth f (some ⟨[], .plain⟩) true c.rest =
      replicate (f (margin c.rest).1 - (margin c.rest).1) ⟨' ', []⟩ := by
    rw [growth, decide_eq_true hblank]
    rfl
  have hrest : c'.rest = replicate (f (margin c.rest).1 - (margin c.rest).1) ⟨' ', []⟩ ++
      widenFrom f (some ⟨[], .plain⟩) false c.rest := by
    rw [h.rest, decide_eq_true hcolumn, widenFrom_eq _ _ _ _ hne, hgrowth]
  have hmargin : margin c'.rest = (f (margin c.rest).1, (margin c.rest).2) := by
    rw [hrest, margin_replicate, (abreast_widenFrom f _ _).margin_eq, Nat.sub_add_cancel hbelow]
  refine ⟨hmargin, ?_⟩
  by_cases hflush : (margin c.rest).1 = 0
  · -- Without a margin there is nothing to skip.
    have hflush' : (margin c'.rest).1 = 0 := by rw [hmargin, hflush, hzero]
    rw [Lexer.skipSpaces_of_margin hflush, Lexer.skipSpaces_of_margin hflush']
    exact ⟨h, growth_of_margin hzero hflush _ _⟩
  · refine h.spaces hrest fun hnil => hflush (Nat.le_zero.mp ?_)
    have hle := margin_le c.rest
    rwa [hnil] at hle

end Cursor

/-! ## Scans -/

namespace Lexeme

open Cursor (Level Widens)

variable {f : Nat → Nat} {opened : List Bracket} {c c' : Cursor}

/-- The scanner at the same place where the lines have other margins. Nothing is said of faults. -/
def widening (f : Nat → Nat) : Pairing where
  place opened c c' := c.Widens f opened c'
  front opened c c' := c.Widens f opened c' ∧ c.Level f opened
  levels := f
  token t t' := t'.mark = t.mark
  fault _ _ := True
  ignores _ := True

theorem lawful_widening (hmono : StrictMono f) (hzero : f 0 = 0) : (widening f).Lawful where
  mono := hmono
  zero := hzero
  known := .inl fun _ => trivial
  kind := congrArg Prod.fst
  column := Widens.column
  here _ _ := rfl
  pending _ _ := rfl
  faults _ _ _ := .inl trivial
  place_of_front := And.left
  abreast := by
    rintro opened c c' ⟨h, hlevel⟩
    rw [h.rest_of_level hlevel]
    exact abreast_widenFrom f _ _
  skip h hle hline hafter := (h.1.take h.2 hle hline hafter).2
  text _ _ _ := rfl
  newline := by
    rintro opened c c' k rest ⟨h, hlevel⟩ hrest hk
    have hafter : after ⟨opened, .plain⟩ (c.rest.take 1) = some ⟨opened, .plain⟩ :=
      after_inert (by simp [hrest, hk, isInert]) _
    have htake := (h.take hlevel (by rw [hrest]; exact Nat.succ_pos _) (by rw [hrest]; simp) hafter).1
    exact congrArg (fun ks => (TokenKind.newline, Cluster.text ks)) htake
  string := by
    rintro opened c c' k rest length ⟨h, hlevel⟩ hrest hquote hlength
    have hline : k.lead ≠ '\n' := by rcases hquote with heq | heq <;> rw [heq] <;> decide
    have hrest' : c'.rest = k :: (rest.take length ++
        widenFrom f (some ⟨opened, .plain⟩) false (rest.drop length)) := by
      rw [h.rest_of_level hlevel, hrest, widenFrom, growth_inside, nil_append,
        bind_some, next_of_quote hquote, widenFrom_string hline hlength]
    have hle : length + 1 ≤ c.rest.length := by
      rw [hrest, length_cons]
      exact Nat.succ_le_succ (stringRest_pos hlength).2
    have hwiden : c'.rest = c.rest.take (length + 1) ++
        widenFrom f (some ⟨opened, .plain⟩) (startsLine (c.column = 1) (c.rest.take (length + 1)))
          (c.rest.drop (length + 1)) := by
      rw [hrest', hrest, take_succ_cons, drop_succ_cons,
        startsLine_of_endsInside (endsInside_string hline hlength).cons]
      rfl
    obtain ⟨htake, hskip⟩ := h.skip hle hwiden
    refine ⟨?_, hskip, congrArg (fun ks => (TokenKind.string, Cluster.text ks)) htake⟩
    rw [hrest']
    exact stringRest_append (stringRest_take hlength)
  unterminated _ _ _ := .inl trivial

section Twin

variable (hmono : StrictMono f) (hzero : f 0 = 0)

/-- The scanners where lines have other margins. -/
def widened (f : Nat → Nat) (hmono : StrictMono f) (hzero : f 0 = 0) : Twin :=
  ⟨widening f, lawful_widening hmono hzero⟩

theorem meets_widened (h : c.Widens f opened c') (hlevel : c.Level f opened) :
    (widened f hmono hzero).Meets opened c c' := by
  obtain ⟨hgap, hfront⟩ := h.gap hlevel
  exact ⟨hgap, hfront⟩

theorem ready_widened {l : Lexer} (h : l.cursor.Widens f l.brackets c') :
    (widened f hmono hzero).Ready l c' := by
  have hblank : l.cursor.column = 1 → l.brackets = [] → _ := fun hcolumn hnone =>
    (hnone ▸ h).pastBlank hcolumn
  refine ⟨h, fun hinside => meets_widened hmono hzero h ?_,
    fun hcolumn hnone => (hblank hcolumn hnone).1, fun hcolumn hnone hrest => ?_, fun hstart => ?_⟩
  · by_cases hopen : l.brackets = []
    · rw [Level, decide_eq_false fun hcolumn => hinside ⟨hcolumn, hopen⟩]
      rfl
    · exact growth_of_bracket hopen f _ _ _
  · refine ⟨(hblank hcolumn hnone).2, ?_⟩
    rw [Level, hrest]
    exact growth_of_margin hzero rfl _ _
  · have hpast : l.pastBlank.cursor.Widens f [] _ := (hblank hstart.column hstart.brackets).2
    obtain ⟨hmargin, hspaces, hlevel⟩ := hpast.skipSpaces hmono hzero
      hstart.column_pastBlank (Lexer.blankLines_pastBlank l) hstart.rest
    refine ⟨?_, hpast, hmargin, hspaces, meets_widened hmono hzero hspaces hlevel⟩
    rw [hpast.rest, widenFrom_eq _ _ _ _ hstart.rest]
    exact append_ne_nil_of_right_ne_nil _ ((abreast_widenFrom f _ _).ne_nil hstart.rest)

end Twin
end Lexeme
end Stencil
