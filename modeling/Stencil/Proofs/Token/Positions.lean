import Stencil.Proofs.Token.Seam

/-!
# Lines and columns

The line and the column of an offset are counted from the source alone: the line by the line breaks
that begin before the offset, the column by the clusters that begin before it on the same line. The
scanner counts both as it goes, and every token that it gives stands where the source says, even the
token of a fault and the tokens of levels that are closed ahead of their line.
-/
namespace Stencil

open Text (Cluster BreakContext)
open Text.Cluster (bytes bytes_nil bytes_cons bytes_append)
open List

/-! ## Counting in a source -/

namespace Text.Cluster

/-- A line feed, alone or after a carriage return. -/
def isLineBreak (k : Cluster) : Bool := k.chars = ['\n'] || k.chars = ['\r', '\n']

/-- Clusters with the offsets at which they begin. -/
def placedFrom (offset : Nat) : List Cluster → List (Nat × Cluster)
  | [] => []
  | k :: ks => (offset, k) :: placedFrom (offset + k.size) ks

end Text.Cluster

open Text.Cluster (isLineBreak placedFrom)

/-- The clusters of a source that begin before an offset. -/
def clustersBefore (source : String) (offset : Nat) : List (Nat × Cluster) :=
  (placedFrom 0 (Cluster.segment source)).filter (·.1 < offset)

def lineAt (source : String) (offset : Nat) : Nat :=
  1 + (clustersBefore source offset).countP (·.2.isLineBreak)

/-- Only the clusters on the line of the offset count. -/
def columnAt (source : String) (offset : Nat) : Nat :=
  1 + (clustersBefore source offset).countP fun p => lineAt source p.1 = lineAt source offset

-- The first cluster of the second line begins after four bytes, since the break is one cluster.
example : (lineAt "é\r\nab" 5, columnAt "é\r\nab" 5) = (2, 2) := by decide +kernel

namespace Token

/-- The token tells its line and column as they are counted in the source. -/
def IsPlaced (source : String) (t : Token) : Prop :=
  t.line = lineAt source t.offset ∧ t.column = columnAt source t.offset

end Token

/-! ## Counting cluster by cluster -/

namespace Text.Cluster

variable {offset : Nat} {p : Nat × Cluster} {before ks rest : List Cluster} {k : Cluster}

theorem placedFrom_append (offset : Nat) (ks ls : List Cluster) :
    placedFrom offset (ks ++ ls) = placedFrom offset ks ++ placedFrom (offset + bytes ks) ls := by
  induction ks generalizing offset with
  | nil => rfl
  | cons k ks ih =>
    rw [cons_append, placedFrom, ih, placedFrom, bytes_cons, Nat.add_assoc]
    rfl

theorem le_of_mem_placedFrom (h : p ∈ placedFrom offset ks) : offset ≤ p.1 := by
  induction ks generalizing offset with
  | nil => cases h
  | cons k ks ih =>
    rcases mem_cons.mp h with rfl | hlater
    · exact Nat.le_refl offset
    · have := ih hlater
      omega

theorem lt_of_mem_placedFrom (h : p ∈ placedFrom offset ks) : p.1 < offset + bytes ks := by
  induction ks generalizing offset with
  | nil => cases h
  | cons k ks ih =>
    rw [bytes_cons]
    rcases mem_cons.mp h with rfl | hlater
    · have := k.size_pos
      dsimp only
      omega
    · have := ih hlater
      omega

theorem map_snd_placedFrom (offset : Nat) (ks : List Cluster) :
    (placedFrom offset ks).map (·.2) = ks := by
  induction ks generalizing offset with
  | nil => rfl
  | cons k ks ih => rw [placedFrom, map_cons, ih]

/-- The line on which each cluster begins, by the line of the first. -/
def linesFrom (line : Nat) : List Cluster → List Nat
  | [] => []
  | k :: ks => line :: linesFrom (if k.isLineBreak then line + 1 else line) ks

/-- The line that goes on after clusters. -/
def lineAfter (ks : List Cluster) : Nat := 1 + ks.countP isLineBreak

/-- The column that comes after clusters. -/
def columnAfter (ks : List Cluster) : Nat := 1 + (linesFrom 1 ks).count (lineAfter ks)

theorem lineAfter_concat (ks : List Cluster) (k : Cluster) :
    lineAfter (ks ++ [k]) = if k.isLineBreak then lineAfter ks + 1 else lineAfter ks := by
  rw [lineAfter, countP_append, countP_singleton, lineAfter]
  split <;> omega

theorem linesFrom_concat (line : Nat) (ks : List Cluster) (k : Cluster) :
    linesFrom line (ks ++ [k]) = linesFrom line ks ++ [line + ks.countP isLineBreak] := by
  induction ks generalizing line with
  | nil => rfl
  | cons j ks ih =>
    rw [cons_append, linesFrom, ih, linesFrom, countP_cons, cons_append]
    by_cases hj : j.isLineBreak
    · simp only [hj, if_true]
      congr 3
      omega
    · simp only [hj]
      rfl

theorem le_of_mem_linesFrom {line n : Nat} (h : n ∈ linesFrom line ks) :
    n ≤ line + ks.countP isLineBreak := by
  induction ks generalizing line with
  | nil => cases h
  | cons k ks ih =>
    rw [countP_cons]
    rcases mem_cons.mp h with rfl | hlater
    · omega
    · have hle := ih hlater
      by_cases hk : k.isLineBreak
      · rw [if_pos hk] at hle ⊢
        omega
      · rw [if_neg hk] at hle ⊢
        omega

/-- A line break starts a line, and any other cluster takes a column. -/
theorem columnAfter_concat (ks : List Cluster) (k : Cluster) :
    columnAfter (ks ++ [k]) = if k.isLineBreak then 1 else columnAfter ks + 1 := by
  rw [columnAfter, linesFrom_concat, count_append, lineAfter_concat, columnAfter]
  by_cases hk : k.isLineBreak
  · rw [if_pos hk, if_pos hk]
    have hnone : (linesFrom 1 ks).count (lineAfter ks + 1) = 0 := by
      rw [count_eq_zero]
      intro hmem
      have := le_of_mem_linesFrom hmem
      rw [lineAfter] at this
      omega
    rw [hnone, lineAfter, count_singleton, if_neg (by simp)]
  · rw [if_neg hk, if_neg hk, lineAfter, count_singleton, if_pos (by simp)]
    omega

theorem columnAfter_append (hks : ∀ k ∈ ks, k.isLineBreak = false) :
    lineAfter (before ++ ks) = lineAfter before ∧
      columnAfter (before ++ ks) = columnAfter before + ks.length := by
  induction ks generalizing before with
  | nil => simp
  | cons k ks ih =>
    obtain ⟨hk, hlater⟩ := forall_mem_cons.mp hks
    have hsplit : before ++ k :: ks = (before ++ [k]) ++ ks := by simp
    obtain ⟨hline, hcolumn⟩ := @ih (before ++ [k]) hlater
    rw [hsplit, hline, hcolumn, lineAfter_concat, columnAfter_concat, hk, length_cons]
    constructor
    · rfl
    · simp only [Bool.false_eq_true, if_false]
      omega

/-- In a source just the line breaks are led by a line feed. -/
theorem lead_iff_isLineBreak {source : String} (h : k ∈ segment source) :
    k.lead = '\n' ↔ k.isLineBreak := by
  have hholds : ∃ before : BreakContext, (before.next (.of k.first)).holds k.joined := by
    obtain ⟨init, rest, hsplit⟩ := append_of_mem h
    have hsegmented := isSegmented_segment source
    rw [hsplit, isSegmented_append, isSegmented, Bool.and_eq_true, Bool.and_eq_true] at hsegmented
    exact ⟨_, hsegmented.2.1.1.1⟩
  obtain ⟨before, hholds⟩ := hholds
  obtain ⟨first, joined⟩ := k
  constructor
  · intro hlead
    rw [lead] at hlead
    split at hlead
    · next hchars => rw [isLineBreak, hchars]; rfl
    · have hfirst : first = '\n' := hlead
      subst hfirst
      -- nothing joins to a line feed
      have hnext : before.next (.of '\n') = .control := by cases before <;> rfl
      cases joined with
      | nil => rfl
      | cons d ds =>
        rw [hnext] at hholds
        cases hholds
  · intro hbreak
    rw [isLineBreak, Bool.or_eq_true, decide_eq_true_eq, decide_eq_true_eq] at hbreak
    rcases hbreak with hchars | hchars
    · rw [lead, hchars, if_neg (by decide)]
      exact (cons.inj hchars).1
    · rw [lead, if_pos hchars]

end Text.Cluster

open Text.Cluster (lineAfter columnAfter linesFrom)

/-- An offset that lies after the start of each of these clusters and not after their end. -/
structure Divides (offset : Nat) (before : List Cluster) : Prop where
  after_starts : ∀ p ∈ placedFrom 0 before, p.1 < offset
  not_beyond : offset ≤ bytes before

namespace Divides

variable {source : String} {offset : Nat} {before rest : List Cluster}

theorem at_end (before : List Cluster) : Divides (bytes before) before := by
  constructor
  · intro p hp
    have := Cluster.lt_of_mem_placedFrom hp
    omega
  · exact Nat.le_refl _

theorem clustersBefore_eq (h : Divides offset before)
    (hsource : Cluster.segment source = before ++ rest) :
    clustersBefore source offset = placedFrom 0 before := by
  have hnone : (placedFrom (0 + bytes before) rest).filter (·.1 < offset) = [] := by
    rw [filter_eq_nil_iff]
    intro p hp hlt
    have hle := Cluster.le_of_mem_placedFrom hp
    have := of_decide_eq_true hlt
    have := h.not_beyond
    omega
  rw [clustersBefore, hsource, Cluster.placedFrom_append, filter_append, hnone,
    append_nil, filter_eq_self]
  exact fun p hp => decide_eq_true (h.after_starts p hp)

theorem lineAt_eq (h : Divides offset before) (hsource : Cluster.segment source = before ++ rest) :
    lineAt source offset = lineAfter before := by
  have hcount := countP_map (p := isLineBreak) (f := Prod.snd) (l := placedFrom 0 before)
  rw [Cluster.map_snd_placedFrom] at hcount
  rw [lineAt, h.clustersBefore_eq hsource, lineAfter, hcount]
  rfl

/-- The lines of clusters of the source are counted one after another. -/
theorem map_lineAt (hsource : Cluster.segment source = before ++ rest) :
    (placedFrom 0 before).map (fun p => lineAt source p.1) = linesFrom 1 before := by
  induction before using reverseRecOn generalizing rest with
  | nil => rfl
  | append_singleton before k ih =>
    rw [append_assoc] at hsource
    have hline := (Divides.at_end before).lineAt_eq hsource
    rw [Cluster.placedFrom_append, map_append, ih hsource, Cluster.linesFrom_concat,
      ← lineAfter, ← hline]
    simp [placedFrom]

theorem columnAt_eq (h : Divides offset before)
    (hsource : Cluster.segment source = before ++ rest) :
    columnAt source offset = columnAfter before := by
  rw [columnAt, h.clustersBefore_eq hsource, h.lineAt_eq hsource, columnAfter, ← map_lineAt hsource,
    count_eq_countP, countP_map]
  congr 2

end Divides

/-! ## Cursors -/

namespace Cursor

/-- The cursor stands between clusters of the source and has counted those before it. -/
def IsAt (source : String) (c : Cursor) : Prop :=
  ∃ before, Cluster.segment source = before ++ c.rest ∧ c.offset = bytes before ∧
    c.line = lineAfter before ∧ c.column = columnAfter before

variable {source : String} {c : Cursor}

theorem IsAt.step (h : c.IsAt source) : c.step.IsAt source := by
  obtain ⟨before, hsource, hoffset, hline, hcolumn⟩ := h
  obtain ⟨rest, line, column, offset⟩ := c
  cases rest with
  | nil => exact ⟨before, hsource, hoffset, hline, hcolumn⟩
  | cons k ks =>
    dsimp only at hsource hoffset hline hcolumn
    have hmem : k ∈ Cluster.segment source := by simp [hsource]
    have hbreak := Cluster.lead_iff_isLineBreak hmem
    have hbytes : offset + k.size = bytes (before ++ [k]) := by
      rw [bytes_append, bytes_cons, bytes_nil, hoffset]
      omega
    have hsplit : Cluster.segment source = (before ++ [k]) ++ ks := by simp [hsource]
    rw [Cursor.step]
    by_cases hk : k.lead = '\n'
    · rw [if_pos hk]
      refine ⟨before ++ [k], hsplit, hbytes, ?_, ?_⟩
      · rw [Cluster.lineAfter_concat, if_pos (hbreak.mp hk), hline]
      · rw [Cluster.columnAfter_concat, if_pos (hbreak.mp hk)]
    · have hother := fun h => hk (hbreak.mpr h)
      rw [if_neg hk]
      refine ⟨before ++ [k], hsplit, hbytes, ?_, ?_⟩
      · rw [Cluster.lineAfter_concat, if_neg hother, hline]
      · rw [Cluster.columnAfter_concat, if_neg hother, hcolumn]

theorem IsAt.skip (h : c.IsAt source) (n : Nat) : (c.skip n).IsAt source := by
  induction n generalizing c with
  | zero => exact h
  | succ n ih => exact ih h.step

/-- What stands at a cursor is placed. -/
theorem IsAt.line_column (h : c.IsAt source) :
    c.line = lineAt source c.offset ∧ c.column = columnAt source c.offset := by
  obtain ⟨before, hsource, hoffset, hline, hcolumn⟩ := h
  rw [hoffset, (Divides.at_end before).lineAt_eq hsource,
    (Divides.at_end before).columnAt_eq hsource]
  exact ⟨hline, hcolumn⟩

end Cursor

namespace Lexeme

/-- The margin is a number of clusters, each of which begins with a space of its own. The last of
them may hold marks and so be longer than one byte. -/
theorem margin_take (offset : Nat) (ks : List Cluster) :
    (ks.take (margin ks).1).length = (margin ks).1 ∧
      (∀ k ∈ ks.take (margin ks).1, k.isLineBreak = false) ∧
      (∀ p ∈ placedFrom offset (ks.take (margin ks).1), p.1 < offset + (margin ks).1) ∧
      (margin ks).1 ≤ bytes (ks.take (margin ks).1) := by
  induction ks generalizing offset with
  | nil => simp [margin, placedFrom]
  | cons k ks ih =>
    by_cases hspace : k.first = ' '
    · have hbreak : k.isLineBreak = false := by
        rw [isLineBreak, Cluster.chars, hspace]
        rfl
      have hsize := k.size_pos
      cases hjoined : k.joined with
      | nil =>
        have hone : k.size = 1 := by
          rw [Cluster.size, Cluster.chars, hspace, hjoined]
          rfl
        have hmargin : (margin (k :: ks)).1 = (margin ks).1 + 1 := by
          rw [margin, if_pos hspace, hjoined]
        obtain ⟨hlength, hbreaks, hstarts, hbytes⟩ := ih (offset + k.size)
        rw [hmargin, take_succ_cons, length_cons, hlength, bytes_cons]
        refine ⟨rfl, forall_mem_cons.mpr ⟨hbreak, hbreaks⟩, ?_, by omega⟩
        rw [placedFrom, forall_mem_cons]
        constructor
        · dsimp only
          omega
        · intro p hp
          have := hstarts p hp
          omega
      | cons c cs =>
        have hmargin : (margin (k :: ks)).1 = 1 := by rw [margin, if_pos hspace, hjoined]
        rw [hmargin, take_succ_cons, take_zero, bytes_cons, bytes_nil]
        refine ⟨rfl, forall_mem_singleton.mpr hbreak, ?_, by omega⟩
        rw [placedFrom, placedFrom, forall_mem_singleton]
        dsimp only
        omega
    · have hmargin : (margin (k :: ks)).1 = 0 := by rw [margin, if_neg hspace]
      rw [hmargin, take_zero]
      simp [placedFrom]

end Lexeme

/-- A token at the margin of a line whose spaces are still to come. -/
theorem Cursor.IsAt.isPlaced_margin {source : String} {c : Cursor} (h : c.IsAt source)
    (hcolumn : c.column = 1) (kind : TokenKind) (literal : String) :
    Token.IsPlaced source ⟨kind, literal, c.line, (Lexeme.margin c.rest).1 + 1,
      c.offset + (Lexeme.margin c.rest).1⟩ := by
  obtain ⟨before, hsource, hoffset, hline, hafter⟩ := h
  obtain ⟨hlength, hbreaks, hstarts, hbytes⟩ := Lexeme.margin_take c.offset c.rest
  generalize (Lexeme.margin c.rest).1 = width at hlength hbreaks hstarts hbytes ⊢
  have hwhole : Cluster.segment source = (before ++ c.rest.take width) ++ c.rest.drop width := by
    rw [append_assoc, take_append_drop, hsource]
  obtain ⟨hsame, hcolumns⟩ := @Cluster.columnAfter_append before _ hbreaks
  have hdivides : Divides (c.offset + width) (before ++ c.rest.take width) := by
    constructor
    · rw [Cluster.placedFrom_append, Nat.zero_add, ← hoffset]
      intro p hp
      rcases mem_append.mp hp with hfront | hmargin
      · have := Cluster.lt_of_mem_placedFrom hfront
        omega
      · exact hstarts p hmargin
    · rw [bytes_append]
      omega
  constructor
  · rw [hdivides.lineAt_eq hwhole, hsame]
    exact hline
  · rw [hdivides.columnAt_eq hwhole, hcolumns, hlength, ← hafter, hcolumn]
    exact Nat.add_comm _ _

/-! ## Tokens -/

namespace Lexer

variable {source : String} {l m : Lexer} {k : Cluster} {rest : List Cluster} {result : Scanned}

/-- What a scan comes to is placed, and the scanner stands in the source after it. -/
def Sees (source : String) : Scanned → Prop
  | .ok (t, m) => t.IsPlaced source ∧ m.cursor.IsAt source
  | .error ((t, _), m) => t.IsPlaced source ∧ m.cursor.IsAt source

theorem Takes.sees (h : l.Takes k rest result) (hl : l.cursor.IsAt source) : Sees source result := by
  cases h with
  | opening | closing => exact ⟨hl.line_column, hl.step⟩
  | _ => exact ⟨hl.line_column, hl.skip _⟩

theorem Gives.sees (h : l.Gives result) (hl : l.cursor.IsAt source) : Sees source result := by
  cases h with
  | lastLine | lastLevel | eof => exact ⟨hl.line_column, hl⟩
  | newline => exact ⟨hl.line_column, hl.skip 1⟩
  | cluster _ _ htakes => exact htakes.sees hl

theorem Lays.sees (h : l.Lays result) (hl : l.cursor.IsAt source) (hcolumn : l.cursor.column = 1) :
    Sees source result := by
  have hinside : l.pastMargin.cursor.IsAt source := hl.skip _
  cases h with
  | tab | uneven => exact ⟨hinside.line_column, hinside.skip _⟩
  | indent | dedent => exact ⟨hinside.line_column, hinside⟩
  | pending => exact ⟨hl.isPlaced_margin hcolumn .dedent "", hl⟩

theorem Branches.sees (h : l.Branches result) (hl : l.cursor.IsAt source) : Sees source result := by
  cases h with
  | gives hcomes hgives =>
    obtain ⟨n, rfl⟩ := hcomes.exists_skip
    exact hgives.sees (hl.skip n)
  | lays hstart hlays => exact hlays.sees (hl.skip _) hstart.column_pastBlank

/-- The scanner stands in the source, and the token of a fault that it has met is placed. -/
structure Located (source : String) (l : Lexer) : Prop where
  cursor : l.cursor.IsAt source
  fault : ∀ failure, l.fault = some failure → failure.1.IsPlaced source

theorem located_start (file source : String) : (start file source).Located source := by
  constructor
  · exact ⟨[], rfl, rfl, rfl, rfl⟩
  · simp [start]

theorem Located.next (h : l.Located source) :
    l.next.1.IsPlaced source ∧ l.next.2.Located source := by
  have hsees := l.scan_branches.sees h.cursor
  rcases next_cases l with ⟨failure, hfault, hnext⟩ | ⟨t, m, hfault, hscan, hnext⟩ |
    ⟨t, fault, m, hfault, hscan, hnext⟩
  · rw [hnext]
    exact ⟨h.fault failure hfault, h⟩
  · rw [hscan] at hsees
    have hm : m.fault = none := (fault_of_scan hscan).trans hfault
    rw [hnext]
    refine ⟨hsees.1, hsees.2, fun failure hsome => ?_⟩
    rw [hm] at hsome
    cases hsome
  · rw [hscan] at hsees
    rw [hnext]
    refine ⟨hsees.1, hsees.2, ?_⟩
    rintro failure ⟨⟩
    exact hsees.1

theorem Located.after (h : l.Located source) (n : Nat) : (l.after n).Located source := by
  induction n generalizing l with
  | zero => exact h
  | succ n ih => exact ih h.next.2

/-- Whichever token comes next, however many have come before it: its line is one more than the line
breaks that begin before it, and its column one more than the clusters that begin before it on its
line. -/
theorem next_at_line_and_column (file source : String) (n : Nat) :
    let t := ((start file source).after n).next.1
    t.line = lineAt source t.offset ∧ t.column = columnAt source t.offset :=
  ((located_start file source).after n).next.1

end Lexer
end Stencil
