import Stencil.Proofs.Token.Effects
import Stencil.Proofs.Token.Endings
import Stencil.Proofs.Token.Lines

/-!
# One source after another

A source that ends with a line break is scanned in front of another as it is on its own, up to its
last token that is no layout. The levels that are still open are then closed at the first line of the
other source, as many of them as at the end of a source, and the tokens of the other source follow at
their new place.
-/
namespace Stencil

open Text (Cluster)
open Lexeme (blankLines margin gap operator)
open List

namespace Cursor

variable {c : Cursor}

theorem skip_of_length_le {n : Nat} (h : c.rest.length ≤ n) : c.skip n = c.skip c.rest.length := by
  obtain ⟨j, rfl⟩ := Nat.exists_eq_add_of_le h
  rw [skip_add, skip_of_empty]
  rw [rest_skip, drop_length]

theorem line_skip (n : Nat) (c : Cursor) :
    (c.skip n).line = c.line + Cluster.breaks (c.rest.take n) := by
  induction n generalizing c with
  | zero => simp [skip, Cluster.breaks]
  | succ n ih =>
    obtain ⟨rest, line, column, offset⟩ := c
    rw [skip, ih]
    cases rest with
    | nil => simp [step, Cluster.breaks]
    | cons k ks =>
      simp only [step, take_succ_cons, Cluster.breaks, countP_cons]
      split
      · next hk => simp [hk]; omega
      · next hk => simp [hk]

/-- After a text that ends with a line break a line starts. -/
theorem column_skip_length (h : Lexeme.EndsLine c.rest) : (c.skip c.rest.length).column = 1 := by
  obtain ⟨init, last, hrest, hlast⟩ := h
  rw [hrest, length_append, length_singleton]
  exact column_skip hlast c hrest

end Cursor

/-! ## Scans at another place -/

def Ending.moved (lines bytes : Nat) : Ending → Ending
  | .eof t => .eof (t.moved lines bytes)
  | .fault t found => .fault (t.moved lines bytes) (found.moved lines)

namespace Scan

def moved (lines bytes : Nat) (scan : Scan) : Scan :=
  ⟨scan.tokens.map (Token.moved lines bytes), scan.ending.moved lines bytes⟩

/-- The scan with tokens in front of its own. -/
def behind (front : List Token) (scan : Scan) : Scan := ⟨front ++ scan.tokens, scan.ending⟩

end Scan

namespace Lexer

variable {s : Shift} {l m : Lexer} {t e : Token} {ts : List Token} {scan : Scan}

theorem Trace.ends (h : l.Trace ts m) (hlater : m.Ends scan) : l.Ends (scan.behind ts) := by
  cases hlater with
  | eof htrace hscan hkind => exact .eof (h.trans htrace) hscan hkind
  | fault htrace hscan => exact .fault (h.trans htrace) hscan

theorem Trace.moved (h : l.Trace ts m) (hmore : s.more = []) :
    (l.moved s).Trace (ts.map (Token.moved s.lines s.bytes)) (m.moved s) := by
  induction h with
  | refl => exact .refl _
  | step hl hscan hkind hlater ih => exact .step hl (scan_moved hscan (.inl hmore)) hkind ih

theorem Ends.moved (h : l.Ends scan) (hmore : s.more = []) :
    (l.moved s).Ends (scan.moved s.lines s.bytes) := by
  cases h with
  | eof htrace hscan hkind =>
    exact .eof (htrace.moved hmore) (scan_moved hscan (.inl hmore)) hkind
  | fault htrace hscan =>
    obtain ⟨n, hn⟩ := fault_moved hscan (.inl hmore) (.inl hmore)
    exact .fault (htrace.moved hmore) hn

/-! ## The end of a source -/

/-- Blank lines may be skipped before a scan. -/
theorem scan_pastBlank (hcolumn : l.cursor.column = 1) (hbrackets : l.brackets = []) :
    l.scan = l.pastBlank.scan := by
  rw [scan_of_lineStart hcolumn hbrackets, lineStart_eq]
  rcases column_pastBlank hcolumn with hempty | hcolumn'
  · rw [hempty, scan_of_empty hempty]
    exact content_of_empty hempty
  · rw [scan_of_lineStart hcolumn' hbrackets, lineStart_eq,
      pastBlank_of_zero (blankLines_pastBlank l)]

/-- Nothing but blank lines is left, and the scanner is at the start of one. -/
structure Done (l : Lexer) : Prop where
  column : l.cursor.column = 1
  brackets : l.brackets = []
  blank : blankLines l.cursor.rest = l.cursor.rest.length
  line : l.cursor.rest = [] ∨ Lexeme.EndsLine l.cursor.rest
  last : isLayout l.last = true

theorem Done.rest_pastBlank (h : l.Done) : l.pastBlank.cursor.rest = [] := by
  rw [Lexer.rest_pastBlank, h.blank, drop_length]

theorem Done.scan_eq (h : l.Done) : l.scan = .ok l.pastBlank.finish := by
  rw [scan_pastBlank h.column h.brackets, scan_of_empty h.rest_pastBlank]

theorem Done.column_pastBlank (h : l.Done) : l.pastBlank.cursor.column = 1 := by
  rw [pastBlank, h.blank]
  rcases h.line with hempty | hline
  · rw [Cursor.skip_of_empty hempty]
    exact h.column
  · exact Cursor.column_skip_length hline

/-- Only levels are closed at the end of a source. -/
theorem Done.dedents (h : l.Done) (htrace : l.Trace ts m) : ∀ t ∈ ts, t.kind = .dedent := by
  induction htrace with
  | refl => simp
  | @step l m n t ts hl hscan hkind hlater ih =>
    rw [h.scan_eq] at hscan
    have hfinish : l.pastBlank.finish = (t, m) := Except.ok.inj hscan
    rw [@finish_of_isLayout l.pastBlank fun _ => h.last] at hfinish
    split at hfinish
    · cases hfinish
      have hempty : blankLines l.pastBlank.cursor.rest = l.pastBlank.cursor.rest.length := by
        rw [h.rest_pastBlank]
        rfl
      exact forall_mem_cons.mpr ⟨rfl, ih ⟨h.column_pastBlank, h.brackets, hempty,
        .inl h.rest_pastBlank, rfl⟩⟩
    · cases hfinish
      exact absurd rfl hkind

/-! ## Up to the end of a source -/

/-- A source does not end where clusters are left. -/
theorem kind_ne_eof_of_clear (hline : Lexeme.EndsLine l.cursor.rest) (hclear : l.atEnd = false)
    (h : l.scan = .ok (t, m)) : t.kind ≠ .eof := by
  intro hkind
  -- In front of one more cluster the same scan would end the source there.
  have hmoved := scan_moved (s := ⟨0, 0, [⟨' ', []⟩]⟩) h (.inr ⟨hline, hclear⟩)
  obtain ⟨-, -, hend, -⟩ := (step_of_scan hmoved).of_eof hkind
  exact append_ne_nil_of_right_ne_nil _ (cons_ne_nil _ _) hend

theorem finish_keeps (l : Lexer) :
    l.finish.2.brackets = l.brackets ∧ l.finish.2.cursor = l.cursor := by
  unfold finish
  dsimp only
  split
  · exact ⟨rfl, rfl⟩
  · split <;> exact ⟨rfl, rfl⟩

/-- Brackets that are open at the end of a source stay open. -/
theorem Trace.brackets_ne_nil (h : l.Trace ts m) (hopen : l.brackets ≠ [])
    (hgap : gap true l.cursor.rest = l.cursor.rest.length) : m.brackets ≠ [] := by
  induction h with
  | refl => exact hopen
  | @step l m n t ts hl hscan hkind hlater ih =>
    have hrest : l.pastGap.cursor.rest = [] := by
      rw [rest_pastGap, isEmpty_eq_false_iff.mpr hopen, Bool.not_false, hgap, drop_length]
    rw [scan_of_inside fun hline => hopen hline.2, content_of_end hrest] at hscan
    obtain ⟨hbrackets, hcursor⟩ := finish_keeps l.pastGap
    rw [Except.ok.inj hscan] at hbrackets hcursor
    refine ih (hbrackets ▸ hopen) ?_
    rw [hcursor, hrest]
    rfl

/-- The scanner at the end of its source or with a whole line left. -/
structure Lined (l : Lexer) : Prop where
  column : 1 ≤ l.cursor.column
  last : l.cursor.column = 1 → isLayout l.last = true
  rest : (l.cursor.rest = [] ∧ l.cursor.column = 1) ∨ Lexeme.EndsLine l.cursor.rest

theorem Lined.next (h : l.Lined) (hscan : l.scan = .ok (t, m)) :
    Lined { m with last := t.kind } := by
  have hleaves := leaves_of_scan h.column hscan
  refine ⟨hleaves.one_le_column h.column, hleaves.line, ?_⟩
  obtain ⟨n, hn⟩ := hleaves.cursor
  simp only [hn]
  rcases h.rest with ⟨hempty, hcolumn⟩ | hline
  · rw [Cursor.skip_of_empty hempty]
    exact .inl ⟨hempty, hcolumn⟩
  · by_cases hlt : n < l.cursor.rest.length
    · rw [Cursor.rest_skip]
      exact .inr (hline.drop hlt)
    · rw [Cursor.skip_of_length_le (Nat.le_of_not_lt hlt)]
      refine .inl ⟨?_, Cursor.column_skip_length hline⟩
      rw [Cursor.rest_skip, drop_length]

/-- Unless brackets are open at the end, either only blank lines are left or a scan stops short of
the end. -/
theorem Lined.done_or_clear (h : l.Lined)
    (hopen : l.brackets ≠ [] → gap true l.cursor.rest ≠ l.cursor.rest.length) :
    l.Done ∨ (Lexeme.EndsLine l.cursor.rest ∧ l.atEnd = false) := by
  by_cases hstart : (l.cursor.column = 1 && l.brackets.isEmpty)
  · obtain ⟨hcolumn, hbrackets⟩ := Bool.and_eq_true_iff.mp hstart
    have hcolumn : l.cursor.column = 1 := of_decide_eq_true hcolumn
    by_cases hblank : blankLines l.cursor.rest = l.cursor.rest.length
    · exact .inl ⟨hcolumn, isEmpty_iff.mp hbrackets, hblank, h.rest.imp And.left id, h.last hcolumn⟩
    · refine .inr ⟨h.rest.resolve_left fun hempty => hblank (by rw [hempty.1]; rfl), ?_⟩
      rw [atEnd, if_pos hstart]
      exact beq_false_of_ne hblank
  · right
    rw [atEnd, if_neg hstart]
    rcases hbrackets : l.brackets with _ | ⟨b, outer⟩
    · have hline : Lexeme.EndsLine l.cursor.rest :=
        h.rest.resolve_left fun hempty => hstart (by rw [hempty.2, hbrackets]; rfl)
      exact ⟨hline, beq_false_of_ne (Nat.ne_of_lt (Lexeme.gapFrom_lt false hline))⟩
    · have hgap := hopen (by rw [hbrackets]; exact cons_ne_nil _ _)
      exact ⟨h.rest.resolve_left fun hempty => hgap (by rw [hempty.1]; rfl), beq_false_of_ne hgap⟩

/-- A scan goes the same way in front of another source until only blank lines are left of its own. -/
theorem Trace.exists_done (h : l.Trace ts m) {n : Lexer} (hend : m.scan = .ok (e, n))
    (hkind : e.kind = .eof) (hm : m.brackets = []) (hl : l.Lined) (s : Shift) :
    ∃ front levels k, ts = front ++ levels ∧ l.Trace front k ∧ k.Trace levels m ∧ k.Done ∧
      (l.moved s).Trace (front.map (Token.moved s.lines s.bytes)) (k.moved s) := by
  have hopen : ∀ {l : Lexer} {ts : List Token}, l.Trace ts m → l.brackets ≠ [] →
      gap true l.cursor.rest ≠ l.cursor.rest.length :=
    fun htrace hne hgap => htrace.brackets_ne_nil hne hgap hm
  induction h with
  | refl l =>
    rcases hl.done_or_clear (hopen (.refl l)) with hdone | ⟨hline, hclear⟩
    · exact ⟨[], [], l, rfl, .refl l, .refl l, hdone, .refl _⟩
    · exact absurd hkind (kind_ne_eof_of_clear hline hclear hend)
  | @step l k m t ts hfault hscan hne hlater ih =>
    have hwhole : l.Trace (t :: ts) m := .step hfault hscan hne hlater
    rcases hl.done_or_clear (hopen hwhole) with hdone | hclear
    · exact ⟨[], t :: ts, l, rfl, .refl l, hwhole, hdone, .refl _⟩
    · obtain ⟨front, levels, k, rfl, hfront, hlevels, hdone, hmoved⟩ :=
        ih hend hm (hl.next hscan) hopen
      exact ⟨t :: front, levels, k, rfl, .step hfault hscan hne hfront, hlevels, hdone,
        .step hfault (scan_moved hscan (.inr hclear)) hne hmoved⟩

/-! ## The first line of the other source -/

theorem skipSpaces_of_margin {c : Cursor} (h : (margin c.rest).1 = 0) : c.skipSpaces = c := by
  have hnone : c.rest.takeWhile (·.lead = ' ') = [] := by
    rcases hrest : c.rest with _ | ⟨k, ks⟩
    · rfl
    · refine takeWhile_cons_of_neg fun hlead => ?_
      have hlead : k.lead = ' ' := of_decide_eq_true hlead
      have hfirst : k.first = ' ' := by
        rw [← Cluster.lead_eq_first (by rw [hlead]; decide), hlead]
      rw [hrest, margin, if_pos hfirst] at h
      cases hjoined : k.joined with
      | nil => rw [hjoined] at h; cases h
      | cons c cs => rw [hjoined] at h; cases h
  rw [Cursor.skipSpaces, hnone]
  rfl

/-- The scanner in front of a line without a margin, or at the end of the source. -/
structure Flush (l : Lexer) : Prop where
  brackets : l.brackets = []
  last : isLayout l.last = true
  fault : l.fault = none
  line : l.cursor.rest = [] ∨ (l.cursor.column = 1 ∧ blankLines l.cursor.rest = 0 ∧
    (margin l.cursor.rest).1 = 0 ∧ (margin l.cursor.rest).2 ≠ some '\t')

theorem Flush.scan_layout (h : l.Flush) (hrest : l.cursor.rest ≠ []) :
    l.scan = l.layout ∧ (margin l.cursor.rest).1 = 0 ∧
      (margin l.cursor.rest).2 ≠ some '\t' := by
  obtain ⟨hcolumn, hblank, hmargin⟩ := h.line.resolve_left hrest
  have hpast := pastBlank_of_zero hblank
  have hstart : l.StartsLine := ⟨hcolumn, h.brackets, by rwa [hpast]⟩
  exact ⟨by rw [hstart.scan_eq, hpast], hmargin⟩

theorem Flush.dedent (h : l.Flush) {level outer : Nat} {levels : List Nat}
    (hindents : l.indents = level :: outer :: levels) (hlevel : 0 < level) :
    ∃ t, l.scan = .ok (t, { l with indents := outer :: levels }) ∧ t.kind = .dedent := by
  by_cases hempty : l.cursor.rest = []
  · refine ⟨l.token .dedent "", ?_, rfl⟩
    rw [scan_of_empty hempty, finish_of_isLayout fun _ => h.last, hindents, if_pos (by simp)]
    rfl
  · obtain ⟨hscan, hmargin, htab⟩ := h.scan_layout hempty
    have hpast : { l.pastMargin with indents := l.indents.tail } =
        { l with indents := outer :: levels } := by
      rw [pastMargin, skipSpaces_of_margin hmargin, hindents]
      rfl
    have htop : (margin l.cursor.rest).1 < l.indents.headD 0 := by
      rw [hmargin, hindents]
      exact hlevel
    have htail : l.indents.tail.headD 0 = outer := by rw [hindents]; rfl
    rcases Nat.eq_zero_or_pos outer with hzero | hpos
    · have hlayout := (Lays.dedent htab htop (by rw [hmargin, htail, hzero])).layout_eq
      rw [hpast] at hlayout
      exact ⟨_, hscan.trans hlayout, rfl⟩
    · have hlayout := (Lays.pending htab htop (by rwa [hmargin, htail])).layout_eq
      rw [hindents] at hlayout
      exact ⟨_, hscan.trans hlayout, rfl⟩

/-- All levels but the lowest are closed, one token each. -/
theorem Flush.levels (h : l.Flush) (hstack : IsStack l.indents) :
    ∃ ds last, (∀ t ∈ ds, t.kind = .dedent) ∧ ds.length + 1 = l.indents.length ∧
      isLayout last ∧ l.Trace ds { l with indents := [0], last := last } := by
  obtain ⟨indents, hindents⟩ : ∃ indents, indents = l.indents := ⟨_, rfl⟩
  induction indents generalizing l with
  | nil => exact absurd hindents.symm hstack.ne_nil
  | cons level levels ih =>
    cases levels with
    | nil =>
      have hzero : l.indents = [0] := by
        have hbottom : [level].getLast? = some 0 := hindents ▸ hstack.bottom
        rw [← hindents]
        exact congrArg ([·]) (Option.some.inj hbottom)
      have hsame : { l with indents := [0], last := l.last } = l := by rw [← hzero]
      refine ⟨[], l.last, by simp, by rw [hzero]; rfl, h.last, ?_⟩
      rw [hsame]
      exact .refl l
    | cons outer levels =>
      have hlevel : 0 < level := by
        have hdecreasing := hstack.decreasing
        rw [← hindents] at hdecreasing
        exact Nat.lt_of_le_of_lt (Nat.zero_le outer)
          ((pairwise_cons.mp hdecreasing).1 outer mem_cons_self)
      obtain ⟨t, hscan, hkind⟩ := h.dedent hindents.symm hlevel
      have hlater : IsStack (outer :: levels) := by
        have hpop := hstack.pop (by rw [← hindents]; exact hlevel)
        rwa [← hindents] at hpop
      obtain ⟨ds, last, hds, hlength, hlast, htrace⟩ :=
        ih (l := { l with indents := outer :: levels, last := t.kind })
          ⟨h.brackets, by rw [hkind]; rfl, h.fault, h.line⟩ hlater rfl
      refine ⟨t :: ds, last, forall_mem_cons.mpr ⟨hkind, hds⟩, ?_, hlast,
        .step h.fault hscan (by rw [hkind]; exact TokenKind.noConfusion) htrace⟩
      rw [← hindents, length_cons, length_cons, hlength]

end Lexer

/-- A word that a block may start with. -/
def TokenKind.isHeading : TokenKind → Bool
  | .identifier | .keyword .css | .keyword .html | .keyword .«import» => true
  | _ => false

namespace Lexer

variable {l m : Lexer} {t e : Token} {ts : List Token} {result : Scanned} {mode : WordMode}
  {last : TokenKind}

theorem not_isHeading_sign {c : Char} {next : Option Char} {sign : TokenKind × Nat}
    (h : operator c next = some sign) : sign.1.isHeading = false := by
  unfold operator at h
  dsimp only at h
  split at h <;> (try split at h) <;> cases h <;> rfl

/-- A heading is a word and is not read as a style word. -/
theorem Gives.heading (h : l.Gives result) (hok : result = .ok (t, m)) (hkind : t.kind.isHeading) :
    ∃ k rest, l.cursor.rest = k :: rest ∧ Text.isLetter k.lead ∧
      l.headingMode k.lead = .plain ∧ word { l with mode := .plain } = (t, m) := by
  cases h with
  | lastLine | lastLevel | eof | newline => cases hok; cases hkind
  | cluster hrest _ htakes =>
    cases htakes with
    | string | opening | closing | styleWord | number => cases hok; cases hkind
    | unterminated | unmatched | unexpected => cases hok
    | word hletter hmode => exact ⟨_, _, hrest, hletter, hmode, Except.ok.inj hok⟩
    | sign _ hsign =>
      cases hok
      exact absurd ((not_isHeading_sign hsign).symm.trans hkind) Bool.false_ne_true

/-- The source ends only where nothing is left. -/
theorem Gives.at_eof (h : l.Gives result) (hok : result = .ok (t, m)) (hkind : t.kind = .eof) :
    l.cursor.rest = [] ∧ l.indents.length ≤ 1 ∧ t = l.token .eof "" := by
  cases h with
  | lastLine | lastLevel | newline => cases hok; cases hkind
  | eof hrest _ hindents =>
    cases hok
    exact ⟨hrest, hindents, rfl⟩
  | cluster _ _ htakes =>
    have hinline := htakes.inline hok
    rw [hkind] at hinline
    cases hinline

/-- A heading in the first column is read the same in any mode. -/
theorem content_reword (h : l.content = .ok (t, m)) (hkind : t.kind.isHeading)
    (hmode : mode = l.mode ∨ t.column = 1) (last : TokenKind) :
    content { l with mode := mode, last := last } = .ok (t, { m with last := last }) := by
  obtain ⟨k, rest, hrest, hletter, hplain, hword⟩ := l.content_gives.heading h hkind
  have hheading : headingMode { l.pastGap with mode := mode, last := last } k.lead = .plain := by
    rcases hmode with rfl | hcolumn
    · exact hplain
    · have hfront : l.pastGap.cursor.column = 1 := by
        have hfirst := congrArg (·.1.column) hword
        exact Eq.trans hfirst hcolumn
      rw [headingMode, hletter]
      simp only [hfront]
      rfl
  have hline : k.lead ≠ '\n' := by
    intro hline
    rw [hline] at hletter
    cases hletter
  have hlast : word { l.pastGap with mode := .plain, last := last } =
      ((word { l.pastGap with mode := .plain }).1,
        { (word { l.pastGap with mode := .plain }).2 with last := last }) := rfl
  rw [hword] at hlast
  have htakes := @Takes.word _ k rest hletter hheading
  rw [hlast] at htakes
  exact htakes.content_eq (l := { l with mode := mode, last := last }) hrest hline

/-- The end of a source is the same in any mode and after any layout. -/
theorem content_end (h : l.content = .ok (e, m)) (hkind : e.kind = .eof) (mode : WordMode)
    (hlast : isLayout last) :
    ∃ n, content { l with mode := mode, last := last } = .ok (e, n) := by
  obtain ⟨hrest, hindents, rfl⟩ := l.content_gives.at_eof h hkind
  have hgives : Gives { l.pastGap with mode := mode, last := last } _ :=
    .eof hrest (fun _ => hlast) hindents
  exact ⟨_, hgives.content_eq (l := { l with mode := mode, last := last })⟩

theorem Flush.scan_eq (h : l.Flush) (hindents : l.indents = [0]) : l.scan = l.content := by
  by_cases hempty : l.cursor.rest = []
  · rw [scan_of_empty hempty, content_of_empty hempty]
  · obtain ⟨hscan, hmargin, htab⟩ := h.scan_layout hempty
    rw [hscan, layout_of_margin htab (by rw [hmargin, hindents]; rfl), pastMargin,
      skipSpaces_of_margin hmargin]

/-- A source whose first token does not open a level starts with a line without a margin. -/
theorem flush_of_scan (hcolumn : l.cursor.rest = [] ∨ l.cursor.column = 1)
    (hblank : blankLines l.cursor.rest = 0) (hindents : l.indents = [0])
    (hbrackets : l.brackets = []) (hlast : isLayout l.last) (hfault : l.fault = none)
    (h : l.scan = .ok (t, m)) (hkind : t.kind ≠ .indent) : l.Flush := by
  refine ⟨hbrackets, hlast, hfault, ?_⟩
  by_cases hempty : l.cursor.rest = []
  · exact .inl hempty
  · have hcolumn := hcolumn.resolve_left hempty
    refine .inr ⟨hcolumn, hblank, ?_⟩
    have hpast := pastBlank_of_zero hblank
    have hstart : l.StartsLine := ⟨hcolumn, hbrackets, by rwa [hpast]⟩
    rw [hstart.scan_eq, hpast] at h
    rcases layout_cases l with ⟨htab, hwidth, -⟩ | hlays
    · exact ⟨by rw [hwidth, hindents]; rfl, htab⟩
    · rw [h] at hlays
      generalize hresult : Except.ok (t, m) = result at hlays
      cases hlays with
      | tab | uneven => cases hresult
      | indent =>
        cases hresult
        exact absurd rfl hkind
      | dedent _ hwidth | pending _ hwidth =>
        rw [hindents] at hwidth
        exact absurd hwidth (Nat.not_lt_zero _)

/-- A source that starts with a heading is scanned the same in any mode, if the heading stands in
the first column. -/
theorem Flush.ends_reword (h : l.Flush) (hindents : l.indents = [0]) (hends : l.Ends ⟨ts, .eof e⟩)
    (hheading : ∀ t ∈ ts.head?, t.kind.isHeading)
    (hmode : mode = l.mode ∨ ∀ t ∈ ts.head?, t.column = 1) (hlast : isLayout last) :
    Ends { l with mode := mode, last := last } ⟨ts, .eof e⟩ := by
  have hflush : Flush { l with mode := mode, last := last } := ⟨h.brackets, hlast, h.fault, h.line⟩
  have hscan := hflush.scan_eq hindents
  obtain ⟨m, n, htrace, hend, hkind⟩ := hends.of_eof rfl
  cases htrace with
  | refl =>
    rw [h.scan_eq hindents] at hend
    obtain ⟨n, hn⟩ := content_end hend hkind mode hlast
    exact .eof (.refl _) (hscan.trans hn) hkind
  | step hl hfirst hne hlater =>
    rw [h.scan_eq hindents] at hfirst
    have hword := content_reword hfirst (hheading _ rfl) (hmode.imp id fun hcolumn => hcolumn _ rfl)
      last
    exact .eof (.step h.fault (hscan.trans hword) hne hlater) hend hkind

/-- Levels that are open from before are closed first. -/
theorem Flush.ends_levels (h : l.Flush) (hindents : l.indents = [0]) (hends : l.Ends ⟨ts, .eof e⟩)
    (hheading : ∀ t ∈ ts.head?, t.kind.isHeading)
    (hmode : mode = l.mode ∨ ∀ t ∈ ts.head?, t.column = 1) (hlast : isLayout last)
    {levels : List Nat} (hlevels : IsStack levels) :
    ∃ ds, (∀ t ∈ ds, t.kind = .dedent) ∧ ds.length + 1 = levels.length ∧
      Ends { l with indents := levels, mode := mode, last := last } ⟨ds ++ ts, .eof e⟩ := by
  have hflush : Flush { l with indents := levels, mode := mode, last := last } :=
    ⟨h.brackets, hlast, h.fault, h.line⟩
  obtain ⟨ds, last, hds, hlength, hlast, htrace⟩ := hflush.levels hlevels
  have hlater := h.ends_reword hindents hends hheading hmode hlast
  rw [hindents] at hlater
  exact ⟨ds, hds, hlength, htrace.ends hlater⟩

end Lexer

/-! ## Two sources -/

namespace Lexer

variable {l k m : Lexer} {t e : Token} {ts : List Token}

theorem Trace.brackets_of_dedents (h : l.Trace ts m) (hcolumn : 1 ≤ l.cursor.column)
    (hts : ∀ t ∈ ts, t.kind = .dedent) : m.brackets = l.brackets := by
  induction h with
  | refl => rfl
  | step hl hscan hkind hlater ih =>
    obtain ⟨ht, hlevels⟩ := forall_mem_cons.mp hts
    have hleaves := leaves_of_scan hcolumn hscan
    exact (ih (hleaves.one_le_column hcolumn) hlevels).trans (hleaves.same (.inl ht))

/-- After a line break no bracket is open. -/
theorem Trace.brackets_of_settled (h : l.Trace ts m) (hcolumn : 1 ≤ l.cursor.column)
    (hts : Settled ts) : m.brackets = [] := by
  obtain ⟨front, t, levels, rfl, ht, hlevels⟩ := hts
  obtain ⟨k, hfront, hlater⟩ := h.append
  cases hlater with
  | step hl hscan hkind hlater =>
    have hk := hfront.one_le_column hcolumn
    have hleaves := leaves_of_scan hk hscan
    exact (hlater.brackets_of_dedents (hleaves.one_le_column hk) hlevels).trans (hleaves.outside ht)

theorem mode_of_dedents (hts : ∀ t ∈ ts, t.kind = .dedent) (mode : WordMode) :
    ts.foldl WordMode.after mode = mode := by
  induction ts with
  | nil => rfl
  | cons t ts ih =>
    obtain ⟨ht, hlater⟩ := forall_mem_cons.mp hts
    have hword : t.isWord = false := by rw [Token.isWord, ht]
    rw [foldl_cons, WordMode.after_of_not_isWord hword, ih hlater]

/-- The ends of levels close all but the lowest. -/
theorem Trace.length_dedents (h : l.Trace ts m) (hts : ∀ t ∈ ts, t.kind = .dedent)
    (hl : IsStack l.indents) {n : Lexer} (hend : m.scan = .ok (e, n)) (hkind : e.kind = .eof) :
    ts.length + 1 = l.indents.length := by
  have hcount : count .dedent ts = ts.length :=
    countP_eq_length.mpr fun t ht => decide_eq_true (hts t ht)
  have hnone : count .indent ts = 0 := by
    refine countP_eq_zero.mpr fun t ht => ?_
    rw [hts t ht]
    exact Bool.noConfusion
  have hone := ((step_of_scan hend).of_eof hkind).2.2.2.2
  have hpos := length_pos_iff.mpr (h.isStack hl).ne_nil
  have hlength := h.length_indents
  omega

theorem Flush.moved (h : l.Flush) (lines bytes : Nat) : (l.moved ⟨lines, bytes, []⟩).Flush := by
  refine ⟨h.brackets, h.last, h.fault, ?_⟩
  simp only [Lexer.moved, Cursor.moved, append_nil]
  exact h.line

/-- The blank lines of what follows are skipped too. -/
theorem Done.cursor_pastBlank (h : k.Done) (more : List Cluster) :
    (k.moved ⟨0, 0, more⟩).pastBlank.cursor =
      ((k.cursor.skip k.cursor.rest.length).moved ⟨0, 0, more⟩).skip (blankLines more) := by
  have hblank : blankLines (k.cursor.rest ++ more) =
      k.cursor.rest.length + blankLines more := by
    rcases h.line with hempty | hline
    · rw [hempty, nil_append, length_nil, Nat.zero_add]
    · have hall : Lexeme.blankLinesFrom 0 false k.cursor.rest = 0 + k.cursor.rest.length := by
        rw [Nat.zero_add]
        exact h.blank
      have hmore := @Lexeme.blankLinesFrom_append_of_eq false 0 _ more hline hall
      rwa [Nat.zero_add] at hmore
  calc (k.moved ⟨0, 0, more⟩).pastBlank.cursor
      = (k.cursor.moved ⟨0, 0, more⟩).skip (k.cursor.rest.length + blankLines more) := by
        rw [← hblank]
        rfl
    _ = ((k.cursor.skip k.cursor.rest.length).moved ⟨0, 0, more⟩).skip (blankLines more) := by
        rw [Cursor.skip_add, Cursor.skip_moved _ (Nat.le_refl _)]

/-- Past the blank lines of both sources the scanner is where it would be in the second alone. -/
theorem Done.cursor_moved (h : k.Done) {lines bytes : Nat}
    (hend : k.cursor.skip k.cursor.rest.length = ⟨[], 1 + lines, 1, 0 + bytes⟩)
    (file source : String) :
    (k.moved ⟨0, 0, Cluster.segment source⟩).pastBlank.cursor =
      (start file source).pastBlank.cursor.moved ⟨lines, bytes, []⟩ := by
  have hle := Lexeme.blankLinesFrom_le 0 false (Cluster.segment source)
  rw [Nat.zero_add] at hle
  calc (k.moved ⟨0, 0, Cluster.segment source⟩).pastBlank.cursor
      = ((k.cursor.skip k.cursor.rest.length).moved ⟨0, 0, Cluster.segment source⟩).skip
          (blankLines (Cluster.segment source)) := h.cursor_pastBlank _
    _ = ((start file source).cursor.moved ⟨lines, bytes, []⟩).skip
          (blankLines (Cluster.segment source)) := by
        rw [hend, Cursor.moved, Cursor.moved, start, append_nil]
        rfl
    _ = (start file source).pastBlank.cursor.moved ⟨lines, bytes, []⟩ :=
        Cursor.skip_moved _ hle

/-- Of the first source, its levels, its mode and its last token are kept. -/
theorem Done.pastBlank_moved (h : k.Done) {file : String} (hfile : k.file = file)
    (hfault : k.fault = none) {lines bytes : Nat}
    (hend : k.cursor.skip k.cursor.rest.length = ⟨[], 1 + lines, 1, 0 + bytes⟩) (source : String) :
    (k.moved ⟨0, 0, Cluster.segment source⟩).pastBlank =
      { (start file source).pastBlank.moved ⟨lines, bytes, []⟩ with
        indents := k.indents, mode := k.mode, last := k.last } := by
  have hcursor := h.cursor_moved hend file source
  calc (k.moved ⟨0, 0, Cluster.segment source⟩).pastBlank
      = { k with cursor := (k.moved ⟨0, 0, Cluster.segment source⟩).pastBlank.cursor } := rfl
    _ = { (start file source).pastBlank.moved ⟨lines, bytes, []⟩ with
          indents := k.indents, mode := k.mode, last := k.last } := by
        rw [hcursor]
        simp only [moved, pastBlank, start, hfile, h.brackets, hfault]

end Lexer

variable {source file : String}

theorem endsLine_segment (h : source.toList.getLast? = some '\n') :
    Lexeme.EndsLine (Cluster.segment source) := by
  have hchars : (Cluster.segment source).flatMap Cluster.chars = source.toList :=
    Cluster.chars_segmentFrom _ _
  have hsegmented := Cluster.isSegmented_segment source
  rcases eq_nil_or_concat' (Cluster.segment source) with hnil | ⟨init, last, heq⟩
  · rw [hnil] at hchars
    rw [← hchars] at h
    cases h
  · refine ⟨init, last, heq, ?_⟩
    rw [heq, Cluster.isSegmented_append, Cluster.isSegmented] at hsegmented
    have hholds := (Bool.and_eq_true_iff.mp (Bool.and_eq_true_iff.mp hsegmented.2.1).1).1
    have hne : last.chars ≠ [] := cons_ne_nil _ _
    have hmem : '\n' ∈ last.chars := by
      rw [← hchars, heq, flatMap_append, flatMap_singleton, getLast?_append_of_ne_nil _ hne] at h
      exact mem_of_getLast? h
    by_contra hlead
    have hcount := Cluster.count_lineFeed hholds
    rw [if_neg hlead] at hcount
    exact count_eq_zero.mp hcount hmem

/-- A source that starts with a heading, or has no tokens, has no margin in front of them. -/
theorem Lexer.flush_start {ts : List Token} {e : Token}
    (h : (start file source).pastBlank.Ends ⟨ts, .eof e⟩)
    (hheading : ∀ t ∈ ts.head?, t.kind.isHeading) : (start file source).pastBlank.Flush := by
  obtain ⟨t, m, hscan, hkind⟩ : ∃ t m, (start file source).pastBlank.scan = .ok (t, m) ∧
      t.kind ≠ .indent := by
    obtain ⟨m, n, htrace, hend, hkind⟩ := h.of_eof rfl
    cases htrace with
    | refl => exact ⟨e, n, hend, by rw [hkind]; exact TokenKind.noConfusion⟩
    | step hl hscan hne hlater =>
      refine ⟨_, _, hscan, fun hindent => ?_⟩
      have htrue := hheading _ rfl
      rw [hindent] at htrue
      cases htrue
  exact flush_of_scan (column_pastBlank rfl) (blankLines_pastBlank _) rfl rfl rfl rfl hscan hkind

/-- The place after a source. -/
theorem Cursor.skip_source {c : Cursor} {n : Nat} (h : c = (Lexer.start file source).cursor.skip n)
    (hcolumn : (c.skip c.rest.length).column = 1) :
    c.skip c.rest.length =
      ⟨[], 1 + source.toList.count '\n', 1, 0 + source.utf8ByteSize⟩ := by
  have hsame : c.skip c.rest.length =
      (Lexer.start file source).cursor.skip (Cluster.segment source).length := by
    have hlength : (Cluster.segment source).length ≤ n + c.rest.length := by
      have hrest : c.rest.length = (Cluster.segment source).length - n := by
        rw [h, rest_skip, length_drop]
        rfl
      omega
    conv_lhs => rw [h]
    rw [← skip_add, ← h]
    exact skip_of_length_le hlength
  have hline : (c.skip c.rest.length).line = 1 + source.toList.count '\n' := by
    rw [hsame, line_skip, ← Cluster.breaks_segment]
    exact congrArg (1 + Cluster.breaks ·) take_length
  have hoffset : (c.skip c.rest.length).offset = 0 + source.utf8ByteSize := by
    rw [hsame, offset_skip]
    have hbytes : Cluster.bytes (Cluster.segment source) = source.utf8ByteSize := by
      rw [← Cluster.utf8ByteSize_text, Cluster.text_segment]
    rw [← hbytes]
    exact congrArg (0 + Cluster.bytes ·) take_length
  have hrest : (c.skip c.rest.length).rest = [] := by
    rw [rest_skip, drop_length]
  rw [← hline, ← hoffset, ← hrest, ← hcolumn]

theorem Lexer.lined_start (file : String) (h : source = "" ∨ source.toList.getLast? = some '\n') :
    (start file source).Lined := by
  refine ⟨Nat.le_refl 1, fun _ => rfl, ?_⟩
  rcases h with rfl | hline
  · exact .inl ⟨rfl, rfl⟩
  · exact .inr (endsLine_segment hline)

theorem forall_head_moved {ts : List Token} {lines bytes : Nat} {P : Token → Prop}
    (hP : ∀ t, P t → P (t.moved lines bytes)) (h : ∀ t ∈ ts.head?, P t) :
    ∀ t ∈ (ts.map (Token.moved lines bytes)).head?, P t := by
  intro t ht
  rw [head?_map] at ht
  obtain ⟨first, hfirst, rfl⟩ := Option.map_eq_some_iff.mp ht
  exact hP first (h first hfirst)

/-- Two sources one after the other give the tokens of the first and then, at their new place, those
of the second; the levels that the first leaves open are closed where the second starts. -/
theorem Scan.of_append {u v : String} {us vs : List Token} {eu ev : Token}
    (hu : u = "" ∨ u.toList.getLast? = some '\n') (hus : Scan.of file u = ⟨us, .eof eu⟩)
    (hvs : Scan.of file v = ⟨vs, .eof ev⟩) (hsettled : us = [] ∨ Settled us)
    (hheading : ∀ t ∈ vs.head?, t.kind.isHeading)
    (hmode : us.foldl WordMode.after .plain = .plain ∨ ∀ t ∈ vs.head?, t.column = 1) :
    ∃ front closing levels, us = front ++ closing ∧ (∀ t ∈ closing, t.kind = .dedent) ∧
      (∀ t ∈ levels, t.kind = .dedent) ∧ closing.length = levels.length ∧
      Scan.of file (u ++ v) =
        ⟨front ++ (levels ++ vs.map (Token.moved (u.toList.count '\n') u.utf8ByteSize)),
          .eof (ev.moved (u.toList.count '\n') u.utf8ByteSize)⟩ := by
  have hfirst := Scan.ends_of file u
  have hsecond := Scan.ends_of file v
  rw [hus] at hfirst
  rw [hvs] at hsecond
  obtain ⟨m, n, htrace, hend, hkind⟩ := hfirst.of_eof rfl
  have hlined := Lexer.lined_start file hu
  have hbrackets : m.brackets = [] := by
    rcases hsettled with rfl | hsettled
    · cases htrace
      rfl
    · exact htrace.brackets_of_settled hlined.column hsettled
  obtain ⟨front, closing, k, rfl, hfront, hclosing, hdone, hmoved⟩ :=
    htrace.exists_done hend hkind hbrackets hlined ⟨0, 0, Cluster.segment v⟩
  have hdedents := hdone.dedents hclosing
  have hstack : IsStack k.indents := hfront.isStack (Lexer.isStack_start file u)
  have harrives := hfront.arrives hlined.column
  have hkmode : k.mode = (front ++ closing).foldl WordMode.after .plain := by
    rw [foldl_append, Lexer.mode_of_dedents hdedents]
    exact harrives.mode
  have hlater : (Lexer.start file v).pastBlank.Ends ⟨vs, .eof ev⟩ :=
    hsecond.of_scan_eq (Lexer.scan_pastBlank rfl rfl).symm rfl
  have hflush := Lexer.flush_start hlater hheading
  obtain ⟨levels, hlevels, hlength, hends⟩ :=
    (hflush.moved (u.toList.count '\n') u.utf8ByteSize).ends_levels rfl (hlater.moved rfl)
      (forall_head_moved (P := (·.kind.isHeading)) (fun _ h => h) hheading)
      (hmode.imp hkmode.trans (forall_head_moved (P := (·.column = 1)) fun _ h => h)) hdone.last hstack
  refine ⟨front, closing, levels, rfl, hdedents, hlevels, ?_, Scan.of_ends ?_⟩
  · have := hclosing.length_dedents hdedents hstack hend hkind
    omega
  · obtain ⟨n, hn⟩ := harrives.cursor
    have hplace : k.cursor.skip k.cursor.rest.length = _ :=
      Cursor.skip_source hn (by rw [← hdone.blank]; exact hdone.column_pastBlank)
    have hstart : (Lexer.start file u).moved ⟨0, 0, Cluster.segment v⟩ =
        Lexer.start file (u ++ v) := by
      rw [Lexer.start, Lexer.start, Cluster.segment_append hu]
      rfl
    have hsame : front.map (Token.moved 0 0) = front := map_id front
    rw [hstart, hsame] at hmoved
    have hfile : k.file = file := harrives.file
    rw [← hdone.pastBlank_moved hfile (hfront.fault rfl) hplace v] at hends
    exact hmoved.ends (hends.of_scan_eq (Lexer.scan_pastBlank hdone.column hdone.brackets) rfl)

end Stencil
