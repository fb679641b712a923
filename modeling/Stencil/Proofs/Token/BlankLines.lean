import Stencil.Proofs.Token.SourceLines

/-!
# Blank lines and comments

A line of spaces or of a comment does not count. It may be put in between two lines where no bracket
and no string is open: the tokens in front of it stay as they are, and those after it, or a fault
there, only move down by one line.
-/
namespace Stencil

open Text (Cluster)
open Text.Cluster (bytes bytes_nil bytes_cons bytes_append)
open List

/-- A line of spaces, then perhaps a comment, then a line feed. -/
def IsBlankLine (line : String) : Prop :=
  ∃ spaces comment, line.toList = List.replicate spaces ' ' ++ (comment ++ ['\n']) ∧
    (comment = [] ∨ comment.head? = some '#') ∧ '\n' ∉ comment

/-! ## Scans at another place -/

/-- The token, with a line of so many bytes put in at a place of its source. -/
def Token.lowered (place bytes : Nat) (t : Token) : Token :=
  if t.offset < place then t else t.moved 1 bytes

def Ending.lowered (place bytes : Nat) (e : Ending) : Ending :=
  if e.token.offset < place then e else e.moved 1 bytes

namespace Scan

/-- The scan, with a line of so many bytes put in at a place of the source. -/
def lowered (place bytes : Nat) (scan : Scan) : Scan :=
  ⟨scan.tokens.map (Token.lowered place bytes), scan.ending.lowered place bytes⟩

variable {place size : Nat} {front : List Token} {scan : Scan}

theorem lowered_tokens (h : ∀ t ∈ front, t.offset < place) :
    front.map (Token.lowered place size) = front := by
  have hsame : ∀ t ∈ front, t.lowered place size = t := fun t ht => if_pos (h t ht)
  rw [map_congr_left hsame, map_id']

theorem lowered_of_le (h : ∀ t ∈ scan.all, place ≤ t.offset) :
    scan.lowered place size = scan.moved 1 size := by
  rw [all, forall_mem_append, forall_mem_singleton] at h
  rw [lowered, moved, Ending.lowered, if_neg (Nat.not_lt.mpr h.2)]
  congr 1
  exact map_congr_left fun t ht => if_neg (Nat.not_lt.mpr (h.1 t ht))

theorem lowered_behind (hfront : ∀ t ∈ front, t.offset < place)
    (h : ∀ t ∈ scan.all, place ≤ t.offset) :
    (scan.behind front).lowered place size = (scan.moved 1 size).behind front := by
  rw [← lowered_of_le h, behind, lowered, map_append, lowered_tokens hfront]
  rfl

theorem marks_lowered (place size : Nat) (scan : Scan) :
    (scan.lowered place size).all.map Token.mark = scan.all.map Token.mark := by
  have htoken : ∀ t : Token, (t.lowered place size).mark = t.mark := by
    intro t
    rw [Token.lowered]
    split <;> rfl
  have hending : (scan.ending.lowered place size).token.mark = scan.ending.token.mark := by
    rw [Ending.lowered]
    split
    · rfl
    · cases scan.ending <;> rfl
  rw [all, all, lowered, map_append, map_append, map_map, map_singleton, map_singleton, hending]
  congr 1
  exact map_congr_left fun t _ => htoken t

end Scan

theorem Fault.moved_zero (fault : Fault) : fault.moved 0 = fault := by
  have hline : fault.position.line + (0 : Nat) = fault.position.line := Int.add_zero _
  rw [Fault.moved, hline]

namespace Lexer

variable {l m : Lexer} {t : Token} {ts : List Token} {scan : Scan}

theorem Trace.le_offset (h : l.Trace ts m) :
    (∀ t ∈ ts, l.cursor.offset ≤ t.offset) ∧ l.cursor.offset ≤ m.cursor.offset := by
  induction h with
  | refl => exact ⟨by simp, Nat.le_refl _⟩
  | step hl hscan hkind hlater ih =>
    have hstep := step_of_scan hscan
    obtain ⟨skipped, taken, hpass⟩ := hstep.passes
    have hoffset := hpass.offset
    refine ⟨forall_mem_cons.mpr ⟨hstep.offset_le, fun t ht => ?_⟩, ?_⟩
    · have := ih.1 t ht
      dsimp only at this
      omega
    · have := ih.2
      dsimp only at this
      omega

theorem Ends.le_offset (h : l.Ends scan) : ∀ t ∈ scan.all, l.cursor.offset ≤ t.offset := by
  have hlast : ∀ {m : Lexer} {t : Token}, l.Trace scan.tokens m → m.cursor.offset ≤ t.offset →
      ∀ u ∈ scan.tokens ++ [t], l.cursor.offset ≤ u.offset := by
    intro m t htrace hoffset
    obtain ⟨htokens, hm⟩ := htrace.le_offset
    exact forall_mem_append.mpr
      ⟨htokens, forall_mem_singleton.mpr (Nat.le_trans hm hoffset)⟩
  cases h with
  | eof htrace hscan => exact hlast htrace (step_of_scan hscan).offset_le
  | fault htrace hscan =>
    cases stuck_of_scan hscan with
    | intro hpass hkind hliteral hoffset => exact hlast htrace (Nat.le.intro hoffset.symm)

end Lexer

/-! ## Where tokens begin -/

namespace Lexer

variable {s : Shift} {l m : Lexer} {t : Token} {k : Cluster} {rest : List Cluster}
  {result : Scanned}

/-- The offset at which the source ends. -/
def stop (l : Lexer) : Nat := l.cursor.offset + bytes l.cursor.rest

theorem Walks.stop (h : l.Walks m) : m.stop = l.stop := by
  obtain ⟨n, hcursor, -⟩ := h
  have hrest := congrArg bytes (take_append_drop n l.cursor.rest)
  rw [bytes_append] at hrest
  rw [Lexer.stop, Lexer.stop, hcursor, Cursor.rest_skip, Cursor.offset_skip]
  omega

theorem offset_skip_lt {n : Nat} (h : n < l.cursor.rest.length) :
    (l.cursor.skip n).offset < l.stop := by
  have hrest := congrArg bytes (take_append_drop n l.cursor.rest)
  have hpos := Cluster.length_le_bytes (l.cursor.rest.drop n)
  rw [bytes_append] at hrest
  rw [length_drop] at hpos
  rw [Cursor.offset_skip, stop]
  omega

/-- The margin of a line ends before its line break. -/
theorem offset_pastMargin_lt (hline : Lexeme.EndsLine l.cursor.rest) :
    l.pastMargin.cursor.offset < l.stop :=
  offset_skip_lt (hline.length_takeWhile_lt fun k hk => by rw [hk]; rfl)

theorem endsLine_pastMargin (hline : Lexeme.EndsLine l.cursor.rest) :
    Lexeme.EndsLine l.pastMargin.cursor.rest := by
  rw [pastMargin, Cursor.skipSpaces, Cursor.rest_skip]
  exact hline.drop (hline.length_takeWhile_lt fun k hk => by rw [hk]; rfl)

theorem begins_scan (hline : Lexeme.EndsLine l.cursor.rest) (hclear : l.atEnd = false)
    (h : l.Branches result) : Begins (· < l.stop) result := by
  have hblank : l.cursor.column = 1 → l.brackets = [] →
      Lexeme.EndsLine l.pastBlank.cursor.rest := by
    intro hcolumn hbrackets
    rw [atEnd, if_pos (by rw [hcolumn, hbrackets]; rfl)] at hclear
    have hle := Lexeme.blankLinesFrom_le 0 false l.cursor.rest
    rw [rest_pastBlank]
    exact hline.drop (Nat.lt_of_le_of_ne (Nat.zero_add l.cursor.rest.length ▸ hle)
      (ne_of_beq_false hclear))
  cases h with
  | gives hcomes hgives =>
    refine hgives.begins ?_
    cases hcomes with
    | inside hinside =>
      rw [atEnd, if_neg (by simpa using hinside)] at hclear
      exact offset_skip_lt (Nat.lt_of_le_of_ne (Lexeme.gapFrom_le _ _ _) (ne_of_beq_false hclear))
    | ending hcolumn hbrackets hrest => exact absurd hrest (hblank hcolumn hbrackets).ne_nil
    | line hstart =>
      have hrest := endsLine_pastMargin (hblank hstart.column hstart.brackets)
      rw [← (walks_pastBlank l).stop, ← (walks_pastMargin _).stop]
      refine offset_skip_lt ?_
      simp only [show l.pastBlank.pastMargin.brackets = [] from hstart.brackets]
      exact Lexeme.gapFrom_lt false hrest
  | lays hstart hlays =>
    have hrest := hblank hstart.column hstart.brackets
    have hplace := offset_pastMargin_lt hrest
    rw [← (walks_pastBlank l).stop]
    exact hlays.begins hplace (Nat.lt_of_le_of_lt (margin_le_pastMargin _) hplace)

/-! ## In front of the line -/

/-- A bracket or a string is open at the end of the source. -/
def leavesOpen (l : Lexer) : Bool :=
  (Nesting.after ⟨l.brackets, .plain⟩ l.cursor.rest).any Nesting.isOpen

theorem Walks.leavesOpen (h : l.Walks m) : m.leavesOpen = l.leavesOpen := by
  obtain ⟨n, hcursor, comment, hafter, hlasts⟩ := h
  have hrest : l.cursor.rest = l.cursor.rest.take n ++ m.cursor.rest := by
    rw [hcursor, Cursor.rest_skip, take_append_drop]
  rw [Lexer.leavesOpen, Lexer.leavesOpen, hrest, Nesting.after_append hafter]
  by_cases hempty : m.cursor.rest = []
  · rw [hempty]
    cases comment <;> rfl
  · rw [Nesting.after_between hlasts hempty]

/-- Brackets that nothing but a gap follows are left open. -/
theorem leavesOpen_of_gap (hopen : l.brackets ≠ [])
    (hgap : Lexeme.gap true l.cursor.rest = l.cursor.rest.length) : l.leavesOpen := by
  have hempty : l.brackets.isEmpty = false := isEmpty_eq_false_iff.mpr hopen
  have hrest : l.pastGap.cursor.rest = [] := by
    rw [pastGap, Cursor.rest_skip, hempty, Bool.not_false, hgap, drop_length]
  rw [← (walks_pastGap l).leavesOpen, leavesOpen, hrest]
  change (!l.brackets.isEmpty || _) = true
  rw [hempty]
  rfl

/-- A string without an end is left open. -/
theorem StandsAt.leavesOpen (h : l.StandsAt .unterminatedString) : l.leavesOpen := by
  obtain ⟨k, rest, hrest, hquote, hstring⟩ := h.string rfl
  obtain ⟨zone, hafter, hzone⟩ := Nesting.after_unterminated hstring l.brackets
  rw [Lexer.leavesOpen, hrest, Nesting.after_cons (Nesting.next_of_quote hquote l.brackets), hafter]
  change (_ || zone.isString) = true
  rw [hzone, Bool.or_true]

/-- What the scanner comes to in front of other clusters, whatever they are: it goes through tokens
until only blank lines are left of its own source, or to a fault before. -/
structure Fronts (l : Lexer) (front : List Token) : Prop where
  before : ∀ t ∈ front, t.offset < l.stop
  ends : (∃ k : Lexer, k.Done ∧ k.stop = l.stop ∧ k.fault = none ∧
      ∀ more, (l.moved ⟨0, 0, more⟩).Trace front (k.moved ⟨0, 0, more⟩)) ∨
    ∃ t fault, t.offset < l.stop ∧ ∀ more, (l.moved ⟨0, 0, more⟩).Ends ⟨front, .fault t fault⟩

theorem Fronts.step {front : List Token} (hl : l.fault = none)
    (hline : Lexeme.EndsLine l.cursor.rest) (hclear : l.atEnd = false)
    (hscan : l.scan = .ok (t, m)) (h : Fronts { m with last := t.kind } front) :
    l.Fronts (t :: front) := by
  have hbegins := begins_scan hline hclear l.scan_branches
  rw [hscan] at hbegins
  have hkind := kind_ne_eof_of_clear hline hclear hscan
  have hstop : stop { m with last := t.kind } = l.stop := (walks_of_scan hscan).stop
  have hmoved : ∀ more, (l.moved ⟨0, 0, more⟩).Trace [t]
      (moved ⟨0, 0, more⟩ { m with last := t.kind }) :=
    fun more => .step hl (scan_moved hscan (.inr ⟨hline, hclear⟩)) hkind (.refl _)
  refine ⟨forall_mem_cons.mpr ⟨hbegins, hstop ▸ h.before⟩, ?_⟩
  rcases h.ends with ⟨k, hdone, hk, hfault, hfront⟩ | ⟨u, fault, hu, hends⟩
  · exact .inl ⟨k, hdone, hk.trans hstop, hfault, fun more => (hmoved more).trans (hfront more)⟩
  · exact .inr ⟨u, fault, hstop ▸ hu, fun more => (hmoved more).ends (hends more)⟩

theorem Lined.exists_fronts (h : l.Lined) (hl : l.fault = none) (hopen : l.leavesOpen = false) :
    ∃ front, l.Fronts front := by
  induction hwork : l.work using Nat.strong_induction_on generalizing l with
  | _ work ih =>
    have hbrackets : l.brackets ≠ [] → Lexeme.gap true l.cursor.rest ≠ l.cursor.rest.length := by
      intro hne hgap
      rw [leavesOpen_of_gap hne hgap] at hopen
      cases hopen
    rcases h.done_or_clear hbrackets with hdone | ⟨hline, hclear⟩
    · exact ⟨[], by simp, .inl ⟨l, hdone, rfl, hl, fun more => .refl _⟩⟩
    rcases hscan : l.scan with ⟨⟨t, fault⟩, m⟩ | ⟨t, m⟩
    · -- The fault would be found in front of anything else too.
      have hcause : fault.cause ≠ .unterminatedString := by
        intro hcause
        obtain ⟨k, hwalks, -, hstands⟩ := stands_of_scan hscan
        rw [hcause] at hstands
        rw [← hwalks.leavesOpen, hstands.leavesOpen] at hopen
        cases hopen
      have hbegins := begins_scan hline hclear l.scan_branches
      rw [hscan] at hbegins
      refine ⟨[], by simp, .inr ⟨t, fault, hbegins, fun more => ?_⟩⟩
      obtain ⟨n, hn⟩ := fault_moved (s := ⟨0, 0, more⟩) hscan (.inr ⟨hline, hclear⟩) (.inr hcause)
      rw [Fault.moved_zero] at hn
      exact .fault (.refl _) hn
    · have hkind := kind_ne_eof_of_clear hline hclear hscan
      have hwalks : l.Walks { m with last := t.kind } := (walks_of_scan hscan :)
      obtain ⟨front, hfront⟩ := ih _ (hwork ▸ (step_of_scan hscan).work_lt hkind) (h.next hscan)
        ((fault_of_scan hscan).trans hl) (hwalks.leavesOpen.trans hopen) rfl
      exact ⟨t :: front, hfront.step hl hline hclear hscan⟩

end Lexer

/-! ## Over the line -/

namespace Cursor

/-- Over clusters that end with a line break, to the start of a line. -/
theorem skip_line {c : Cursor} {ks rest : List Cluster} (hrest : c.rest = ks ++ rest)
    (hline : Lexeme.EndsLine ks) :
    c.skip ks.length = ⟨rest, c.line + Cluster.breaks ks, 1, c.offset + bytes ks⟩ := by
  have htake : c.rest.take ks.length = ks := by rw [hrest, take_left]
  have hrest' : (c.skip ks.length).rest = rest := by rw [rest_skip, hrest, drop_left]
  have hlines : (c.skip ks.length).line = c.line + Cluster.breaks ks := by rw [line_skip, htake]
  have hoffset : (c.skip ks.length).offset = c.offset + bytes ks := by rw [offset_skip, htake]
  have hcolumn : (c.skip ks.length).column = 1 := by
    obtain ⟨init, last, rfl, hlast⟩ := hline
    rw [append_assoc] at hrest
    rw [length_append]
    exact column_skip hlast c hrest
  rw [← hrest', ← hlines, ← hoffset, ← hcolumn]

end Cursor

/-- The clusters of a blank line. -/
structure IsBlank (ks : List Cluster) : Prop where
  line : Lexeme.EndsLine ks
  blank : Lexeme.blankLines ks = ks.length
  one : Cluster.breaks ks = 1

theorem IsBlankLine.isBlank {line : String} (h : IsBlankLine line) :
    IsBlank (Cluster.segment line) := by
  obtain ⟨spaces, comment, hchars, hhash, hfeed⟩ := h
  have hlast : line.toList.getLast? = some '\n' := by
    rw [hchars, ← append_assoc, getLast?_concat]
  have hinside : '\n' ∉ line.toList.dropLast := by
    rw [hchars, ← append_assoc, dropLast_concat, mem_append, not_or]
    exact ⟨by simp, hfeed⟩
  have hblank : hasContent line.toList = false := by
    rw [hasContent, hchars, dropWhile_append_of_pos (by simp)]
    rcases hhash with rfl | hhash
    · rfl
    · obtain ⟨text, rfl⟩ := head?_eq_some_iff.mp hhash
      rw [cons_append, dropWhile_cons_of_neg (by decide)]
      simp
  refine ⟨endsLine_segment hlast, ?_, ?_⟩
  · have hline := Lexeme.blankLinesFrom_line hinside 0
    rwa [hblank, if_neg Bool.false_ne_true, Nat.zero_add] at hline
  · rw [Cluster.breaks_segment, hchars, count_append, count_append,
      count_eq_zero.mpr hfeed, count_replicate]
    rfl

namespace Lexer

variable {k : Lexer} {line : List Cluster}

/-- Past the blank lines the scanner is where it would be without one of them, one line further. -/
theorem Done.pastBlank_line (h : k.Done) (hline : IsBlank line) (more : List Cluster) :
    (k.moved ⟨0, 0, line ++ more⟩).pastBlank =
      (k.moved ⟨0, 0, more⟩).pastBlank.moved ⟨1, bytes line, []⟩ := by
  have hcolumn : (k.cursor.skip k.cursor.rest.length).column = 1 := by
    rw [← h.blank]
    exact h.column_pastBlank
  have hblank : Lexeme.blankLines (line ++ more) = line.length + Lexeme.blankLines more := by
    have hall : Lexeme.blankLinesFrom 0 false line = 0 + line.length := by
      rw [Nat.zero_add]
      exact hline.blank
    have hmore := @Lexeme.blankLinesFrom_append_of_eq false 0 _ more hline.line hall
    rwa [Nat.zero_add] at hmore
  have hle : Lexeme.blankLines more ≤ more.length :=
    Nat.zero_add more.length ▸ Lexeme.blankLinesFrom_le 0 false more
  have hrest : (k.cursor.skip k.cursor.rest.length).rest = [] := by
    rw [Cursor.rest_skip, drop_length]
  have hcursor : (k.moved ⟨0, 0, line ++ more⟩).pastBlank.cursor =
      (k.moved ⟨0, 0, more⟩).pastBlank.cursor.moved ⟨1, bytes line, []⟩ := by
    rw [h.cursor_pastBlank, h.cursor_pastBlank, hblank, Cursor.skip_add]
    generalize k.cursor.skip k.cursor.rest.length = place at hcolumn hrest
    obtain ⟨rest, number, column, offset⟩ := place
    cases hcolumn
    cases hrest
    rw [@Cursor.skip_line _ line more rfl hline.line, hline.one,
      ← Cursor.skip_moved ⟨1, bytes line, []⟩ hle]
    simp only [Cursor.moved, nil_append, append_nil, Nat.add_zero]
  calc (k.moved ⟨0, 0, line ++ more⟩).pastBlank
      = { k with cursor := (k.moved ⟨0, 0, line ++ more⟩).pastBlank.cursor } := rfl
    _ = (k.moved ⟨0, 0, more⟩).pastBlank.moved ⟨1, bytes line, []⟩ := by
        rw [hcursor]
        rfl

/-- The blank lines of the scanner's own source lie in front of all that follows. -/
theorem Done.stop_le (h : k.Done) (more : List Cluster) :
    k.stop ≤ (k.moved ⟨0, 0, more⟩).pastBlank.cursor.offset := by
  rw [h.cursor_pastBlank, Cursor.offset_skip]
  have hplace : (k.cursor.skip k.cursor.rest.length).offset = k.stop := by
    rw [Cursor.offset_skip, take_length]
    rfl
  change k.stop ≤ (k.cursor.skip k.cursor.rest.length).offset + _ + _
  omega

/-- A blank line after the scanner's own source moves what follows down by a line. -/
theorem Done.ends_line (h : k.Done) (hline : IsBlank line) (more : List Cluster) {scan : Scan}
    (hends : (k.moved ⟨0, 0, more⟩).Ends scan) :
    (k.moved ⟨0, 0, line ++ more⟩).Ends (scan.moved 1 (bytes line)) ∧
      ∀ t ∈ scan.all, k.stop ≤ t.offset := by
  have hskip : ∀ more, (k.moved ⟨0, 0, more⟩).scan = (k.moved ⟨0, 0, more⟩).pastBlank.scan :=
    fun _ => scan_pastBlank h.column h.brackets
  have hpast := hends.of_scan_eq (hskip more).symm rfl
  constructor
  · have hlower := hpast.moved (s := ⟨1, bytes line, []⟩) rfl
    rw [← h.pastBlank_line hline] at hlower
    exact hlower.of_scan_eq (hskip _) rfl
  · intro t ht
    exact Nat.le_trans (h.stop_le more) (hpast.le_offset t ht)

end Lexer

namespace Scan

variable {file u v line : String}

theorem start_append (hu : u = "" ∨ u.toList.getLast? = some '\n') (v : String) :
    Lexer.start file (u ++ v) = (Lexer.start file u).moved ⟨0, 0, Cluster.segment v⟩ := by
  rw [Lexer.start, Lexer.start, Cluster.segment_append hu]
  rfl

theorem of_blankLine (hu : u = "" ∨ u.toList.getLast? = some '\n') (hopen : leavesOpen u = false)
    (hline : IsBlankLine line) :
    Scan.of file (u ++ (line ++ v)) =
      (Scan.of file (u ++ v)).lowered u.utf8ByteSize line.utf8ByteSize := by
  have hbytes : ∀ text, bytes (Cluster.segment text) = text.utf8ByteSize := by
    intro text
    rw [← Cluster.utf8ByteSize_text, Cluster.text_segment]
  have hstop : (Lexer.start file u).stop = u.utf8ByteSize := (Nat.zero_add _).trans (hbytes u)
  have hlast : line = "" ∨ line.toList.getLast? = some '\n' := by
    obtain ⟨spaces, comment, hchars, -⟩ := hline
    right
    rw [hchars, ← append_assoc, getLast?_concat]
  obtain ⟨front, hfront⟩ := (Lexer.lined_start file hu).exists_fronts rfl hopen
  have hbefore := hfront.before
  rw [hstop] at hbefore
  rcases hfront.ends with ⟨k, hdone, hk, hfault, htrace⟩ | ⟨t, fault, ht, hends⟩
  · have hends := (k.moved ⟨0, 0, Cluster.segment v⟩).ends_run (Nat.lt_succ_self _) hfault
    obtain ⟨hlower, hafter⟩ := hdone.ends_line hline.isBlank _ hends
    rw [hk, hstop] at hafter
    rw [hbytes, ← Cluster.segment_append hlast] at hlower
    have hwith := (htrace _).ends hlower
    have hwithout := (htrace _).ends hends
    rw [← start_append hu] at hwith hwithout
    rw [Scan.of_ends hwith, Scan.of_ends hwithout, lowered_behind hbefore hafter]
  · have hwith := hends (Cluster.segment (line ++ v))
    have hwithout := hends (Cluster.segment v)
    rw [← start_append hu] at hwith hwithout
    rw [Scan.of_ends hwith, Scan.of_ends hwithout, lowered, lowered_tokens hbefore]
    rw [hstop] at ht
    exact congrArg (Scan.mk front) (if_pos ht).symm

theorem message_lowered {place size : Nat} {scan : Scan} {t : Token} {fault : Fault}
    (h : scan.ending = .fault t fault) :
    ∃ t' fault', (scan.lowered place size).ending = .fault t' fault' ∧
      fault'.cause.message = fault.cause.message := by
  rw [lowered, h, Ending.lowered]
  split
  · exact ⟨t, fault, rfl, rfl⟩
  · exact ⟨_, _, rfl, rfl⟩

/-- A blank line or a comment between two lines, where no bracket and no string is open, changes
neither the kinds and literals of the tokens nor the message of a fault. What begins after it is
found one line further down. -/
theorem blank_line_invisible (hu : u = "" ∨ u.toList.getLast? = some '\n')
    (hopen : leavesOpen u = false) (hline : IsBlankLine line) :
    (Scan.of file (u ++ (line ++ v))).all.map Token.mark =
      (Scan.of file (u ++ v)).all.map Token.mark ∧
    (∀ t fault, (Scan.of file (u ++ v)).ending = .fault t fault →
      ∃ t' fault', (Scan.of file (u ++ (line ++ v))).ending = .fault t' fault' ∧
        fault'.cause.message = fault.cause.message) ∧
    Scan.of file (u ++ (line ++ v)) =
      (Scan.of file (u ++ v)).lowered u.utf8ByteSize line.utf8ByteSize := by
  have hscan : Scan.of file (u ++ (line ++ v)) = _ := of_blankLine hu hopen hline
  rw [hscan]
  exact ⟨marks_lowered _ _ _, fun t fault => message_lowered, rfl⟩

/-- A comment deeper than all levels, in front of a line that closes two of them and is unsound. -/
theorem comment_before_dedents :
    leavesOpen "html:\n  p\n    b\n" = false ∧ IsBlankLine "      # (\n" ∧
      Scan.of "page" ("html:\n  p\n    b\n" ++ ("      # (\n" ++ "i )\n")) =
        (Scan.of "page" ("html:\n  p\n    b\n" ++ "i )\n")).lowered
          "html:\n  p\n    b\n".utf8ByteSize "      # (\n".utf8ByteSize := by
  have hopen : leavesOpen "html:\n  p\n    b\n" = false := by decide +kernel
  have hline : IsBlankLine "      # (\n" :=
    ⟨6, ['#', ' ', '('], by decide +kernel, .inr rfl, by decide⟩
  have hlast : "html:\n  p\n    b\n".toList.getLast? = some '\n' := by decide +kernel
  exact ⟨hopen, hline, (blank_line_invisible (.inr hlast) hopen hline).2.2⟩

end Scan

end Stencil
