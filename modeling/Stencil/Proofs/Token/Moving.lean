import Mathlib.Data.List.TakeWhile
import Stencil.Proofs.Token.Twins

/-!
# A scan in a longer source

The same clusters at another place of a source, with more clusters after them, give the same tokens
at another place. Only where the scanner comes to the end of the clusters does it matter what
follows; clusters that end with a line break keep it from getting there within a line.
-/
namespace Stencil

open Text (Cluster)
open List Lexeme Cursor

/-! ## Lengths -/

namespace Lexeme

/-- The clusters end with a line break. -/
def EndsLine (ks : List Cluster) : Prop := ∃ init last, ks = init ++ [last] ∧ last.lead = '\n'

theorem EndsLine.ne_nil {ks : List Cluster} (h : EndsLine ks) : ks ≠ [] := by
  obtain ⟨init, last, rfl, -⟩ := h
  simp

variable {k : Cluster} {comment : Bool} {read : Nat}

theorem EndsLine.tail {ks : List Cluster} (h : EndsLine (k :: ks)) (hne : ks ≠ []) :
    EndsLine ks := by
  obtain ⟨init, last, heq, hlast⟩ := h
  cases init with
  | nil => exact absurd (cons.inj heq).2 hne
  | cons j init => exact ⟨init, last, (cons.inj heq).2, hlast⟩

/-- After a cluster that is no line break there is more. -/
theorem EndsLine.tail_of_lead {ks : List Cluster} (h : EndsLine (k :: ks)) (hk : k.lead ≠ '\n') :
    EndsLine ks := by
  refine h.tail ?_
  rintro rfl
  obtain ⟨init, last, heq, hlast⟩ := h
  cases init with
  | nil => exact hk ((cons.inj heq).1 ▸ hlast)
  | cons j init => simp at heq

theorem EndsLine.drop {ks : List Cluster} (h : EndsLine ks) {n : Nat} (hn : n < ks.length) :
    EndsLine (ks.drop n) := by
  induction n generalizing ks with
  | zero => exact h
  | succ n ih =>
    cases ks with
    | nil => cases hn
    | cons k ks =>
      have hlt : n < ks.length := Nat.lt_of_succ_lt_succ hn
      exact ih (h.tail (ne_nil_of_length_pos (Nat.lt_of_le_of_lt (Nat.zero_le n) hlt))) hlt

/-- Nothing follows the clusters, or they end with a line break. -/
def Closes (ks more : List Cluster) : Prop := more = [] ∨ EndsLine ks

theorem Closes.cons {ks more : List Cluster} (h : Closes (k :: ks) more) (hk : k.lead ≠ '\n') :
    Closes ks more :=
  h.imp id (·.tail_of_lead hk)

variable {ks more : List Cluster}

theorem Closes.eq_nil (h : Closes [] more) : more = [] :=
  h.resolve_right fun hline => hline.ne_nil rfl

theorem Closes.abreast (h : Closes ks more) : Abreast ks (ks ++ more) := by
  induction ks with
  | nil =>
    rw [h.eq_nil]
    exact .nil
  | cons k ks ih =>
    by_cases hk : k.lead = '\n'
    · exact .line hk hk _ _
    · exact .cons hk (ih (h.cons hk))

theorem EndsLine.length_takeWhile_lt {part : Cluster → Bool} (h : EndsLine ks)
    (hpart : ∀ k : Cluster, k.lead = '\n' → part k = false) :
    (ks.takeWhile part).length < ks.length := by
  obtain ⟨init, last, rfl, hlast⟩ := h
  refine Nat.lt_of_le_of_ne ( takeWhile_prefix _).length_le fun hlength => ?_
  have hall := ( takeWhile_prefix part).eq_of_length hlength
  have hmem : last ∈ (init ++ [last]).takeWhile part := by
    rw [hall]
    simp
  exact absurd (hpart last hlast) (by rw [mem_takeWhile_imp hmem]; decide)

theorem gapFrom_le (bracketed comment : Bool) (ks : List Cluster) :
    gapFrom bracketed comment ks ≤ ks.length := by
  induction ks generalizing comment with
  | nil => exact Nat.le_refl 0
  | cons k ks ih =>
    have htrue := ih true
    have hfalse := ih false
    rw [gapFrom, length_cons]
    grind

/-- Outside brackets a line break ends the gap. -/
theorem gapFrom_lt (comment : Bool) (h : EndsLine ks) : gapFrom false comment ks < ks.length := by
  induction ks generalizing comment with
  | nil => exact absurd rfl h.ne_nil
  | cons k ks ih =>
    rw [gapFrom, length_cons]
    by_cases hk : k.lead = '\n'
    · rw [if_pos hk]
      exact Nat.succ_pos _
    · have htrue := ih true (h.tail_of_lead hk)
      have hfalse := ih false (h.tail_of_lead hk)
      rw [if_neg hk]
      grind

/-- A gap inside brackets that ends before the clusters do. -/
theorem gapFrom_append_of_lt {bracketed : Bool} (h : gapFrom bracketed comment ks < ks.length) :
    gapFrom bracketed comment (ks ++ more) = gapFrom bracketed comment ks := by
  induction ks generalizing comment with
  | nil => cases h
  | cons k ks ih =>
    rw [gapFrom, length_cons] at h
    rw [cons_append, gapFrom, gapFrom]
    grind

theorem blankLinesFrom_le (read : Nat) (comment : Bool) (ks : List Cluster) :
    blankLinesFrom read comment ks ≤ read + ks.length := by
  induction ks generalizing read comment with
  | nil => exact Nat.le_refl _
  | cons k ks ih =>
    have hbreak := ih 0 false
    have hcomment := ih (read + 1) true
    have hspace := ih (read + 1) false
    rw [blankLinesFrom, length_cons]
    grind

/-- Blank lines that follow count too, but only if all lines before them are blank. -/
theorem blankLinesFrom_append (hline : EndsLine ks) :
    blankLinesFrom read comment (ks ++ more) =
      if blankLinesFrom read comment ks < read + ks.length then blankLinesFrom read comment ks
      else read + ks.length + blankLines more := by
  induction ks generalizing read comment with
  | nil => exact absurd rfl hline.ne_nil
  | cons k ks ih =>
    rw [cons_append, blankLinesFrom, blankLinesFrom, length_cons]
    by_cases hk : k.lead = '\n'
    · rw [if_pos hk, if_pos hk]
      cases ks with
      | nil => simp [blankLinesFrom, blankLines]
      | cons j ks =>
        rw [ih (hline.tail (cons_ne_nil _ _))]
        grind
    · have hrest := hline.tail_of_lead hk
      have hcomment := @ih true (read + 1) hrest
      have hspace := @ih false (read + 1) hrest
      grind

theorem blankLinesFrom_append_of_lt (hline : EndsLine ks)
    (h : blankLinesFrom read comment ks < read + ks.length) :
    blankLinesFrom read comment (ks ++ more) = blankLinesFrom read comment ks := by
  rw [blankLinesFrom_append hline, if_pos h]

theorem blankLinesFrom_append_of_eq (hline : EndsLine ks)
    (h : blankLinesFrom read comment ks = read + ks.length) :
    blankLinesFrom read comment (ks ++ more) = read + ks.length + blankLines more := by
  rw [blankLinesFrom_append hline, if_neg (Nat.not_lt.mpr (Nat.le_of_eq h.symm))]

end Lexeme

/-! ## Places -/

/-- Another place for the same clusters: what is in front of them, and the clusters after them. -/
structure Shift where
  lines : Nat
  bytes : Nat
  more : List Cluster := []

def Token.moved (lines bytes : Nat) (t : Token) : Token :=
  { t with line := t.line + lines, offset := t.offset + bytes }

def Fault.moved (lines : Nat) (fault : Fault) : Fault :=
  { fault with position.line := fault.position.line + lines }

namespace Cursor

def moved (s : Shift) (c : Cursor) : Cursor :=
  ⟨c.rest ++ s.more, c.line + s.lines, c.column, c.offset + s.bytes⟩

theorem skip_moved (s : Shift) {n : Nat} {c : Cursor} (h : n ≤ c.rest.length) :
    (c.moved s).skip n = (c.skip n).moved s := by
  induction n generalizing c with
  | zero => rfl
  | succ n ih =>
    obtain ⟨rest, line, column, offset⟩ := c
    cases rest with
    | nil => cases h
    | cons k ks =>
      have hstep : (moved s ⟨k :: ks, line, column, offset⟩).step =
          (step ⟨k :: ks, line, column, offset⟩).moved s := by
        simp only [moved, step, cons_append]
        split <;> simp only [mk.injEq, true_and] <;> omega
      rw [skip, hstep, ih, skip]
      simp only [step]
      split <;> exact Nat.le_of_succ_le_succ h

end Cursor

namespace Lexer

def moved (s : Shift) (l : Lexer) : Lexer := { l with cursor := l.cursor.moved s }

end Lexer

namespace Shift

variable {s : Shift} {c : Cursor}

/-- The scanner in front of the same clusters at another place. A string without an end may find its
end in what follows. -/
def pairing (s : Shift) : Pairing where
  place _ c c' := c' = c.moved s
  front _ c c' := c' = c.moved s ∧ Lexeme.Closes c.rest s.more
  levels := id
  token t t' := t' = t.moved s.lines s.bytes
  fault f f' := f' = f.moved s.lines
  ignores cause := s.more ≠ [] ∧ cause = .unterminatedString

theorem take_moved {n : Nat} (h : n ≤ c.rest.length) :
    (c.moved s).rest.take n = c.rest.take n := take_append_of_le_length h

theorem lawful (s : Shift) : s.pairing.Lawful where
  mono := strictMono_id
  zero := rfl
  known := .inr rfl
  kind := by
    rintro t _ rfl
    rfl
  column := by
    rintro b c _ rfl
    rfl
  here := by
    rintro b c _ kind literal rfl -
    rfl
  pending := by
    rintro c _ width rfl
    change (⟨_, _, _, _, _⟩ : Token) = ⟨_, _, _, _, _⟩
    rw [Nat.add_right_comm]
    rfl
  faults := by
    rintro b c _ file cause rfl
    exact .inr rfl
  place_of_front := And.left
  abreast := by
    rintro b c _ ⟨rfl, hcloses⟩
    exact hcloses.abreast
  skip := by
    rintro b later c _ n ⟨rfl, -⟩ hle - -
    exact skip_moved s hle
  text := by
    rintro b c _ n kind ⟨rfl, -⟩ -
    rfl
  newline := by
    rintro b c _ k rest ⟨rfl, -⟩ hrest -
    rw [take_moved (by rw [hrest]; exact Nat.succ_pos _)]
    rfl
  string := by
    rintro b c _ k rest n ⟨rfl, -⟩ hrest - hlength
    have hle : n + 1 ≤ c.rest.length := by
      rw [hrest]
      exact Nat.succ_le_succ (stringRest_pos hlength).2
    refine ⟨?_, skip_moved s hle, by rw [take_moved hle]; rfl⟩
    rw [moved, hrest]
    exact stringRest_append hlength
  unterminated := by
    rintro b c _ k rest ⟨rfl, -⟩ hrest hnone
    by_cases hmore : s.more = []
    · have hsame : (c.moved s).rest = c.rest := by rw [moved, hmore, append_nil]
      refine .inr ⟨by rwa [hsame, hrest], ?_⟩
      rw [hsame]
      rfl
    · exact .inl ⟨hmore, rfl⟩

def twin (s : Shift) : Twin := ⟨s.pairing, s.lawful⟩

theorem twin_eq (s : Shift) (l : Lexer) : s.twin.twin l (l.cursor.moved s) = l.moved s := by
  have hindents : l.indents.map s.twin.levels = l.indents := map_id _
  rw [Twin.twin, hindents]
  rfl

/-- A gap that ends before the clusters do, or nothing after them. -/
theorem meets {b : List Bracket} (hcloses : Lexeme.Closes c.rest s.more)
    (hgap : s.more = [] ∨ gap (!b.isEmpty) c.rest < c.rest.length) :
    s.twin.Meets b c (c.moved s) where
  gap := by
    change gap (!b.isEmpty) (c.rest ++ s.more) = _
    rcases hgap with hnil | hlt
    · rw [hnil, append_nil]
    · exact gapFrom_append_of_lt hlt
  front := by
    refine ⟨skip_moved s (gapFrom_le _ _ _), ?_⟩
    rw [rest_skip]
    rcases hcloses with hnil | hline
    · exact .inl hnil
    · exact hgap.imp_right hline.drop

theorem starts (hcloses : Lexeme.Closes c.rest s.more) (hne : c.rest ≠ []) :
    s.twin.Starts c (c.moved s) := by
  have hbreak : ∀ k : Cluster, k.lead = '\n' → decide (k.lead = ' ') = false := by
    intro k hk
    rw [hk]
    rfl
  have hspaces : (c.moved s).skipSpaces = c.skipSpaces.moved s := by
    rw [skipSpaces]
    change (c.moved s).skip ((c.rest ++ s.more).takeWhile _).length = _
    rw [hcloses.abreast.takeWhile_eq hbreak]
    exact skip_moved s ( takeWhile_prefix _).length_le
  have hcloses' : Lexeme.Closes c.skipSpaces.rest s.more := by
    rw [skipSpaces, rest_skip]
    exact hcloses.imp_right fun hline => hline.drop (hline.length_takeWhile_lt hbreak)
  refine ⟨append_ne_nil_of_left_ne_nil hne _, rfl, hcloses.abreast.margin_eq, hspaces, ?_⟩
  rw [hspaces]
  exact meets hcloses' (hcloses'.imp_right (gapFrom_lt false))

end Shift

namespace Lexer

variable {s : Shift} {l m : Lexer} {t : Token}

/-- Only blanks are left: blank lines at the start of a line, and a gap elsewhere. -/
def atEnd (l : Lexer) : Bool :=
  if l.cursor.column = 1 && l.brackets.isEmpty then
    Lexeme.blankLines l.cursor.rest == l.cursor.rest.length
  else Lexeme.gap (!l.brackets.isEmpty) l.cursor.rest == l.cursor.rest.length

theorem ready_moved (hclear : s.more = [] ∨ (Lexeme.EndsLine l.cursor.rest ∧ l.atEnd = false)) :
    s.twin.Ready l (l.cursor.moved s) := by
  have hcloses : Lexeme.Closes l.cursor.rest s.more := hclear.imp_right And.left
  have hblank : l.cursor.column = 1 → l.brackets = [] →
      s.more = [] ∨ blankLines l.cursor.rest < l.cursor.rest.length := by
    intro hcolumn hbrackets
    refine hclear.imp_right fun hclear => ?_
    have hne := hclear.2
    rw [atEnd, if_pos (by rw [hcolumn, hbrackets]; rfl)] at hne
    have hle := blankLinesFrom_le 0 false l.cursor.rest
    exact Nat.lt_of_le_of_ne (Nat.zero_add l.cursor.rest.length ▸ hle) (ne_of_beq_false hne)
  have hpast : l.cursor.column = 1 → l.brackets = [] →
      Lexeme.Closes l.pastBlank.cursor.rest s.more ∧
        (l.cursor.moved s).skip (blankLines l.cursor.rest) = l.pastBlank.cursor.moved s := by
    intro hcolumn hbrackets
    constructor
    · rw [rest_pastBlank]
      rcases hcloses with hnil | hline
      · exact .inl hnil
      · exact (hblank hcolumn hbrackets).imp_right hline.drop
    · exact skip_moved s
        (Nat.zero_add l.cursor.rest.length ▸ blankLinesFrom_le 0 false _)
  refine ⟨rfl, fun hinside => Shift.meets hcloses (hclear.imp_right fun hclear => ?_),
    fun hcolumn hbrackets => ?_, fun hcolumn hbrackets _ => ?_, fun hstart => ?_⟩
  · have hne := hclear.2
    rw [atEnd, if_neg (by simpa using hinside)] at hne
    exact Nat.lt_of_le_of_ne (gapFrom_le _ _ _) (ne_of_beq_false hne)
  · change blankLines (l.cursor.rest ++ s.more) = _
    rcases hcloses with hnil | hline
    · rw [hnil, append_nil]
    · rcases hblank hcolumn hbrackets with hnil | hlt
      · rw [hnil, append_nil]
      · exact blankLinesFrom_append_of_lt hline (by rw [Nat.zero_add]; exact hlt)
  · obtain ⟨hcloses, hcursor⟩ := hpast hcolumn hbrackets
    exact ⟨hcursor, hcloses⟩
  · obtain ⟨hcloses, hcursor⟩ := hpast hstart.column hstart.brackets
    rw [hcursor]
    exact Shift.starts hcloses hstart.rest

theorem comes_moved (hclear : s.more = [] ∨ (Lexeme.EndsLine l.cursor.rest ∧ l.atEnd = false)) :
    s.twin.Comes l.scan (l.moved s).scan := by
  rw [← s.twin_eq]
  exact Twin.scan (ready_moved hclear)

/-- A scan at another place gives the same token there, unless it comes to the end of the clusters
where more of them follow. -/
theorem scan_moved (h : l.scan = .ok (t, m))
    (hclear : s.more = [] ∨ (Lexeme.EndsLine l.cursor.rest ∧ l.atEnd = false)) :
    (l.moved s).scan = .ok (t.moved s.lines s.bytes, m.moved s) := by
  have hcomes := comes_moved hclear
  rw [h] at hcomes
  generalize (l.moved s).scan = result at hcomes
  cases hcomes with
  | ok htoken hplace =>
    obtain rfl := htoken
    obtain rfl := hplace
    rw [s.twin_eq]

/-- A fault is found at another place too, unless more clusters may end an open string. -/
theorem fault_moved {fault : Fault} (h : l.scan = .error ((t, fault), m))
    (hclear : s.more = [] ∨ (Lexeme.EndsLine l.cursor.rest ∧ l.atEnd = false))
    (hstring : s.more = [] ∨ fault.cause ≠ .unterminatedString) :
    ∃ n, (l.moved s).scan = .error ((t.moved s.lines s.bytes, fault.moved s.lines), n) := by
  have hcomes := comes_moved hclear
  rw [h] at hcomes
  generalize (l.moved s).scan = result at hcomes
  cases hcomes with
  | error htoken hfault =>
    obtain rfl := htoken
    obtain rfl := hfault
    exact ⟨_, rfl⟩
  | ignored hignored => exact absurd hignored.2 (hstring.resolve_left hignored.1)

end Lexer
end Stencil
