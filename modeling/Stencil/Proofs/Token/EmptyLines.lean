import Stencil.Proofs.Token.BlankLines
import Stencil.Proofs.Token.Positions
import Stencil.Proofs.Token.Widening

/-!
# Empty lines

No rule of the grammar is about a line without tokens, so the scanner should pass over each of them.
It looks for lines of spaces and comments when a line starts, and for other blanks only after that. A
line with a carriage return before its line break, or with a space that carries a mark, is not blank
to the first test; of such a line the scanner gives the line break alone.
-/
namespace Stencil

open Text (Cluster)
open List

/-- A line without tokens: blanks, perhaps a comment, and a line feed. -/
structure IsEmptyLine (line : String) : Prop where
  feed : line.toList.getLast? = some '\n'
  one : '\n' ∉ line.toList.dropLast
  trivia : Lexeme.isTrivia false (Cluster.segment line) = true

/-- Every token of a line break comes right after a token of its line. -/
def Scan.LinesFilled (scan : Scan) : Prop :=
  ∀ front newline back, scan.tokens = front ++ newline :: back → newline.kind = .newline →
    ∃ t, front.getLast? = some t ∧ t.kind ≠ .newline ∧ t.kind ≠ .indent ∧ t.kind ≠ .dedent

/-! ## Gaps up to a line break -/

namespace Lexeme

variable {ks rest : List Cluster} {k : Cluster} {comment : Bool}

/-- There is only a gap in front of the next line break. -/
def GapsLine (ks : List Cluster) : Prop :=
  ∃ k rest, ks.drop (gap false ks) = k :: rest ∧ k.lead = '\n'

theorem GapsLine.ne_nil (h : GapsLine ks) : ks ≠ [] := by
  rintro rfl
  obtain ⟨k, rest, hrest, -⟩ := h
  cases hrest

/-- Spaces in front of a gap are a part of it. -/
theorem drop_gap_spaces (ks : List Cluster) :
    (ks.drop (ks.takeWhile (·.lead = ' ')).length).drop
      (gap false (ks.drop (ks.takeWhile (·.lead = ' ')).length)) = ks.drop (gap false ks) := by
  induction ks with
  | nil => rfl
  | cons k ks ih =>
    by_cases hk : k.lead = ' '
    · have hgap : gap false (k :: ks) = gap false ks + 1 := by
        simp [gap, gapFrom, hk, Nat.add_comm]
      rw [takeWhile_cons_of_pos (by simpa using hk), length_cons, drop_succ_cons, ih,
        hgap, drop_succ_cons]
    · rw [takeWhile_cons_of_neg (by simpa using hk)]
      rfl

/-- Blanks and a comment make up the gap in front of the first line break. -/
theorem gapFrom_of_isTrivia (hks : ∀ j ∈ ks, j.lead ≠ '\n') (hk : k.lead = '\n')
    (h : isTrivia comment (ks ++ [k])) (rest : List Cluster) :
    gapFrom false comment (ks ++ k :: rest) = ks.length := by
  induction ks generalizing comment with
  | nil => simp [gapFrom, hk]
  | cons j ks ih =>
    obtain ⟨hj, hks⟩ := forall_mem_cons.mp hks
    have hlater := @ih
    rw [cons_append, isTrivia, if_neg hj, ← Cluster.lead_eq_first hj] at h
    rw [cons_append, gapFrom, if_neg hj, length_cons]
    grind

/-- The line that a gap goes up to the end of. -/
theorem isTrivia_line (hk : k.lead = '\n') : isTrivia false (ks.take (gap false ks) ++ [k]) :=
  isTrivia_append (isTrivia_gapFrom _ _ _) (by rw [isTrivia, if_pos hk]; rfl)

end Lexeme

/-- Clusters may be cut at the start of a line. -/
theorem exists_segment_split {source : String} {before ks : List Cluster}
    (h : Cluster.segment source = before ++ ks) (hline : before = [] ∨ Lexeme.EndsLine before) :
    ∃ u v, source = u ++ v ∧ Cluster.segment u = before ∧ Cluster.segment v = ks ∧
      (u = "" ∨ u.toList.getLast? = some '\n') := by
  have hsegmented := Cluster.isSegmented_segment source
  rw [h, Cluster.isSegmented_append] at hsegmented
  have hchars : (Cluster.text before).toList = before.flatMap Cluster.chars := String.toList_ofList
  have hbefore : Cluster.segment (Cluster.text before) = before := by
    rw [Cluster.segment, hchars, Cluster.segmentFrom_flatMap hsegmented.1]
  have hfeed : Cluster.text before = "" ∨ (Cluster.text before).toList.getLast? = some '\n' := by
    rcases hline with rfl | ⟨init, last, rfl, hlast⟩
    · exact .inl rfl
    · have hbreak := (Cluster.lead_iff_isLineBreak (by rw [h]; simp)).mp hlast
      rw [hchars, flatMap_append, flatMap_singleton]
      rw [Cluster.isLineBreak, Bool.or_eq_true, decide_eq_true_eq, decide_eq_true_eq] at hbreak
      rcases hbreak with heq | heq <;> simp [heq]
  have hsource : source = Cluster.text before ++ Cluster.text ks := by
    rw [← Cluster.text_append, ← h, Cluster.text_segment]
  have hks := Cluster.segment_append hfeed (v := Cluster.text ks)
  rw [← hsource, h, hbefore] at hks
  exact ⟨_, _, hsource, hbefore, (append_cancel_left hks).symm, hfeed⟩

namespace IsEmptyLine

variable {line : String}

theorem gapsLine (h : IsEmptyLine line) (v : String) :
    Lexeme.GapsLine (Cluster.segment (line ++ v)) := by
  obtain ⟨init, last, hline, hlast⟩ := endsLine_segment h.feed
  have hinit : ∀ k ∈ init, k.lead ≠ '\n' := by
    have hmem := lead_of_mem_line h.one
    rwa [← Cluster.segment, hline, dropLast_concat] at hmem
  have htrivia := h.trivia
  rw [hline] at htrivia
  have hgap := Lexeme.gapFrom_of_isTrivia hinit hlast htrivia (Cluster.segment v)
  rw [Cluster.segment_append (.inr h.feed), hline, append_assoc]
  refine ⟨last, Cluster.segment v, ?_, hlast⟩
  rw [Lexeme.gap, singleton_append, hgap, drop_left]

theorem blankLines (h : IsEmptyLine line) (v : String) :
    Lexeme.blankLines (Cluster.segment (line ++ v)) = 0 ↔ hasContent line.toList := by
  have hne : line.toList ≠ [] := by
    intro hnil
    have hfeed := h.feed
    rw [hnil] at hfeed
    cases hfeed
  rw [Cluster.segment, String.toList_append]
  exact Lexeme.blankLines_line hne h.one (.inr h.feed)

end IsEmptyLine

/-- The line at the start of a text, if only a gap stands in front of its line break. -/
theorem exists_isEmptyLine {text : String} (h : Lexeme.GapsLine (Cluster.segment text)) :
    ∃ line v, text = line ++ v ∧ IsEmptyLine line := by
  obtain ⟨k, rest, hrest, hk⟩ := h
  generalize hks : Cluster.segment text = ks at hrest
  have hsplit : Cluster.segment text = (ks.take (Lexeme.gap false ks) ++ [k]) ++ rest := by
    rw [hks, append_assoc, singleton_append, ← hrest, take_append_drop]
  obtain ⟨line, v, htext, hline, -, hfeed⟩ := exists_segment_split hsplit (.inr ⟨_, k, rfl, hk⟩)
  have hfeed : line.toList.getLast? = some '\n' := by
    refine hfeed.resolve_left ?_
    rintro rfl
    exact absurd hline.symm (append_ne_nil_of_right_ne_nil _ (cons_ne_nil _ _))
  refine ⟨line, v, htext, hfeed, ?_, by rw [hline]; exact Lexeme.isTrivia_line hk⟩
  -- The gap holds no line break, so the last line feed of the line is its only one.
  have hbreaks : Cluster.breaks (Cluster.segment line) = 1 := by
    have hgap : Cluster.breaks (ks.take (Lexeme.gap false ks)) = 0 :=
      countP_eq_zero.mpr fun j hj => by simpa using Lexeme.lead_of_mem_gap hj
    rw [Cluster.breaks] at hgap
    rw [hline, Cluster.breaks, countP_append, hgap]
    simp [hk]
  obtain ⟨init, hinit⟩ := getLast?_eq_some_iff.mp hfeed
  rw [Cluster.breaks_segment, hinit, count_append, count_singleton_self] at hbreaks
  rw [hinit, dropLast_concat]
  exact count_eq_zero.mp (Nat.succ.inj hbreaks)

namespace Lexer

open Lexeme (GapsLine gap blankLines)

variable {l m n p first : Lexer} {t e : Token} {ts : List Token} {result : Scanned}

theorem Trace.last_eq (h : l.Trace ts m) :
    m.last = (ts.getLast?.map (·.kind)).getD l.last := by
  induction h with
  | refl => rfl
  | @step l m n t ts _ _ _ _ ih =>
    rw [ih, getLast?_cons]
    cases ts.getLast? <;> rfl

theorem rest_pastMargin (l : Lexer) : l.pastMargin.cursor.rest =
    l.cursor.rest.drop (l.cursor.rest.takeWhile (·.lead = ' ')).length := Cursor.rest_skip _ _

/-- The gap after the margin ends where the gap of the whole line does. -/
theorem drop_gap_pastMargin (l : Lexer) :
    l.pastMargin.cursor.rest.drop (gap false l.pastMargin.cursor.rest) =
      l.cursor.rest.drop (gap false l.cursor.rest) := by
  rw [rest_pastMargin]
  exact Lexeme.drop_gap_spaces _

theorem gapsLine_pastMargin :
    GapsLine l.pastMargin.cursor.rest ↔ GapsLine l.cursor.rest := by
  rw [GapsLine, drop_gap_pastMargin]
  rfl

/-- A scanner still in the first column had no margin to skip. -/
theorem pastMargin_of_column (hcolumn : 1 ≤ l.cursor.column)
    (h : l.pastMargin.cursor.column = 1) : l.pastMargin = l := by
  have hspaces : l.cursor.rest.takeWhile (·.lead = ' ') = [] := by
    by_contra hne
    have hle := ( takeWhile_prefix (l := l.cursor.rest) (·.lead = ' ')).length_le
    have hcolumn' := two_le_column_skip hcolumn hle (by
      rw [← prefix_iff_eq_take.mp ( takeWhile_prefix _)]
      refine Lexeme.endsInside_of_forall hne fun k hk => ?_
      have hspace := mem_takeWhile_imp hk
      rw [of_decide_eq_true hspace]
      decide)
    have hskip : 2 ≤ l.pastMargin.cursor.column := hcolumn'
    omega
  rw [pastMargin, Cursor.skipSpaces, hspaces]
  rfl

theorem rest_pastGap_of_empty (hbrackets : l.brackets = []) :
    l.pastGap.cursor.rest = l.cursor.rest.drop (gap false l.cursor.rest) := by
  rw [rest_pastGap, hbrackets]
  rfl

/-! ## Line breaks after layout -/

/-- A line that is not blank starts at the scanner. -/
structure AtLine (l : Lexer) : Prop where
  column : l.cursor.column = 1
  brackets : l.brackets = []
  content : blankLines l.cursor.rest = 0

theorem StartsLine.atLine (h : l.StartsLine) : l.pastBlank.AtLine :=
  ⟨h.column_pastBlank, h.brackets, blankLines_pastBlank l⟩

/-- After a token of layout the scanner is at the start of a line, at its end, or past the margin of
a line that is not blank. -/
structure Placed (first l : Lexer) : Prop where
  walks : first.Walks l
  place : isLayout l.last = true → l.cursor.column = 1 ∨ l.cursor.rest = [] ∨
    ∃ p, first.Walks p ∧ p.AtLine ∧ l.cursor = p.pastMargin.cursor

theorem Gives.column_or_end (h : l.Gives result) (hok : result = .ok (t, m))
    (hkind : isLayout t.kind) : m.cursor.column = 1 ∨ m.cursor.rest = [] := by
  cases h with
  | lastLine hrest | lastLevel hrest | eof hrest => cases hok; exact .inr hrest
  | newline hrest hk =>
    cases hok
    exact .inl (@Cursor.column_skip [] _ hk l.cursor _ hrest)
  | cluster _ _ htakes =>
    rw [htakes.inline hok] at hkind
    cases hkind

theorem Lays.column_or_margin (h : l.Lays result) (hok : result = .ok (t, m)) :
    m.cursor = l.cursor ∨ m.cursor = l.pastMargin.cursor := by
  cases h with
  | tab | uneven => cases hok
  | indent | dedent => cases hok; exact .inr rfl
  | pending => cases hok; exact .inl rfl

theorem Placed.next (h : first.Placed l) (hscan : l.scan = .ok (t, m)) :
    first.Placed { m with last := t.kind } := by
  refine ⟨h.walks.trans (walks_of_scan hscan :), fun hkind => ?_⟩
  cases l.scan_branches with
  | gives _ hgives =>
    rcases hgives.column_or_end hscan hkind with hcolumn | hrest
    · exact .inl hcolumn
    · exact .inr (.inl hrest)
  | lays hstart hlays =>
    rcases hlays.column_or_margin hscan with hcursor | hcursor
    · refine .inl ?_
      change m.cursor.column = 1
      rw [hcursor]
      exact hstart.column_pastBlank
    · exact .inr (.inr ⟨l.pastBlank, h.walks.trans (walks_pastBlank l), hstart.atLine, hcursor⟩)

theorem Trace.placed (h : l.Trace ts m) (hl : first.Placed l) : first.Placed m :=
  (h.all_tokens (P := fun _ => True) (fun _ _ _ hl hscan => ⟨trivial, hl.next hscan⟩) hl).2

/-- After layout a line break comes just if there is only a gap in front of one. -/
theorem Gives.newline_iff (h : l.pastGap.Gives result) (hok : result = .ok (t, m))
    (hlast : isLayout l.last) :
    t.kind = .newline ↔ l.brackets = [] ∧ GapsLine l.cursor.rest := by
  cases h with
  | lastLine _ _ hinline => exact absurd (hinline.symm.trans hlast) Bool.false_ne_true
  | lastLevel hempty | eof hempty =>
    cases hok
    refine iff_of_false TokenKind.noConfusion ?_
    rintro ⟨hbrackets, k, rest, hrest, -⟩
    rw [← rest_pastGap_of_empty hbrackets, hempty] at hrest
    cases hrest
  | newline hrest hk hbrackets =>
    cases hok
    exact iff_of_true rfl
      ⟨hbrackets, _, _, (@rest_pastGap_of_empty l hbrackets).symm.trans hrest, hk⟩
  | cluster hrest hk htakes =>
    refine iff_of_false (fun hkind => ?_) ?_
    · have hinline := htakes.inline hok
      rw [hkind] at hinline
      cases hinline
    · rintro ⟨hbrackets, j, rest, hrest', hj⟩
      rw [← rest_pastGap_of_empty hbrackets, hrest] at hrest'
      cases hrest'
      exact hk hj

/-- A line break right after layout ends a line that is not blank but has only a gap. -/
theorem Placed.exists_line (h : first.Placed l) (hlast : isLayout l.last)
    (hscan : l.scan = .ok (t, m)) (hkind : t.kind = .newline) :
    ∃ p, first.Walks p ∧ p.AtLine ∧ GapsLine p.cursor.rest := by
  cases l.scan_branches with
  | gives hcomes hgives =>
    cases hcomes with
    | inside hinside =>
      obtain ⟨hbrackets, hgap⟩ := (hgives.newline_iff hscan hlast).mp hkind
      rcases h.place hlast with hcolumn | hempty | ⟨p, hwalks, hp, hcursor⟩
      · exact absurd ⟨hcolumn, hbrackets⟩ hinside
      · exact absurd hempty hgap.ne_nil
      · rw [hcursor] at hgap
        exact ⟨p, hwalks, hp, gapsLine_pastMargin.mp hgap⟩
    | ending _ _ hempty =>
      rw [← pastGap_of_empty hempty] at hgives
      exact absurd hempty ((hgives.newline_iff hscan hlast).mp hkind).2.ne_nil
    | line hstart =>
      have hgap := ((hgives.newline_iff hscan hlast).mp hkind).2
      exact ⟨l.pastBlank, h.walks.trans (walks_pastBlank l), hstart.atLine,
        gapsLine_pastMargin.mp hgap⟩
  | lays hstart hlays =>
    generalize hresult : l.scan = result at hlays
    rw [hresult] at hscan
    cases hlays with
    | tab | uneven => cases hscan
    | indent | dedent | pending => cases hscan; cases hkind

/-! ## Layout up to a line break -/

/-- The scanner after layout, with only a gap in front of the line break of the next line that is not
blank. -/
structure BeforeGap (l : Lexer) : Prop where
  brackets : l.brackets = []
  last : isLayout l.last = true
  line : l.cursor.column = 1 → GapsLine l.pastBlank.cursor.rest
  inside : l.cursor.column ≠ 1 → GapsLine l.cursor.rest

/-- The margin of such a line leads to another such place. -/
theorem AtLine.beforeGap (h : p.AtLine) (hgap : GapsLine p.cursor.rest)
    (hcursor : m.cursor = p.cursor ∨ m.cursor = p.pastMargin.cursor) (hbrackets : m.brackets = [])
    (hlast : isLayout m.last) : m.BeforeGap := by
  have hfirst : m.cursor = p.cursor → m.BeforeGap := by
    intro heq
    refine ⟨hbrackets, hlast, fun _ => ?_, fun hne => ?_⟩
    · rw [rest_pastBlank, heq, h.content]
      exact hgap
    · exact absurd (heq ▸ h.column) hne
  rcases hcursor with heq | heq
  · exact hfirst heq
  · by_cases hcolumn : m.cursor.column = 1
    · rw [heq] at hcolumn
      rw [pastMargin_of_column (Nat.le_of_eq h.column.symm) hcolumn] at heq
      exact hfirst heq
    · refine ⟨hbrackets, hlast, fun hone => absurd hone hcolumn, fun _ => ?_⟩
      rw [heq]
      exact gapsLine_pastMargin.mpr hgap

theorem BeforeGap.next (h : l.BeforeGap) (hscan : l.scan = .ok (t, m)) :
    t.kind = .newline ∨ (t.kind ≠ .eof ∧ BeforeGap { m with last := t.kind }) := by
  cases l.scan_branches with
  | gives hcomes hgives =>
    refine .inl ?_
    cases hcomes with
    | inside hinside =>
      have hgap := h.inside fun hone => hinside ⟨hone, h.brackets⟩
      exact (hgives.newline_iff hscan h.last).mpr ⟨h.brackets, hgap⟩
    | ending hcolumn _ hempty => exact absurd hempty (h.line hcolumn).ne_nil
    | line hstart =>
      have hgap := gapsLine_pastMargin.mpr (h.line hstart.column)
      exact (hgives.newline_iff hscan h.last).mpr ⟨h.brackets, hgap⟩
  | lays hstart hlays =>
    refine .inr ?_
    have hcursor := hlays.column_or_margin hscan
    have hgap := h.line hstart.column
    have hbefore : isLayout t.kind → m.brackets = [] →
        BeforeGap { m with last := t.kind } := fun hlast hbrackets =>
      hstart.atLine.beforeGap hgap hcursor hbrackets hlast
    generalize hresult : l.scan = result at hlays
    rw [hresult] at hscan
    cases hlays with
    | tab | uneven => cases hscan
    | indent | dedent | pending =>
      cases hscan
      exact ⟨TokenKind.noConfusion, hbefore rfl h.brackets⟩

theorem BeforeGap.exists_newline (h : l.BeforeGap) (htrace : l.Trace ts m)
    (hend : m.scan = .ok (e, n)) (heof : e.kind = .eof) :
    ∃ front newline back k, ts = front ++ newline :: back ∧ newline.kind = .newline ∧
      l.Trace front k ∧ isLayout k.last := by
  induction htrace with
  | refl l =>
    rcases h.next hend with hkind | ⟨hkind, -⟩
    · rw [heof] at hkind
      cases hkind
    · exact absurd heof hkind
  | @step l _ _ t ts hl hscan hkind _ ih =>
    rcases h.next hscan with hnewline | ⟨-, hnext⟩
    · exact ⟨[], t, ts, l, rfl, hnewline, .refl l, h.last⟩
    · obtain ⟨front, newline, back, k, rfl, hnewline, hfront, hlast⟩ := ih hnext hend
      exact ⟨t :: front, newline, back, k, rfl, hnewline, .step hl hscan hkind hfront, hlast⟩

/-- A line that follows the scanner's own source, of which only blank lines are left. -/
theorem Done.beforeGap (h : l.Done) {more : List Cluster} (hblank : blankLines more = 0)
    (hgap : GapsLine more) : (l.moved ⟨0, 0, more⟩).BeforeGap := by
  refine ⟨h.brackets, h.last, fun _ => ?_, fun hne => absurd h.column hne⟩
  rw [h.cursor_pastBlank, hblank]
  change GapsLine ((l.cursor.skip l.cursor.rest.length).rest ++ more)
  rw [Cursor.rest_skip, drop_length]
  exact hgap

end Lexer

/-! ## Where lines are filled -/

namespace Scan

open Lexer (isLayout)

variable {file source : String} {eof : Token}

theorem linesFilled_iff_last (h : (Scan.of file source).ending = .eof eof) :
    (Scan.of file source).LinesFilled ↔ ∀ front newline back l,
      (Scan.of file source).tokens = front ++ newline :: back → newline.kind = .newline →
        (Lexer.start file source).Trace front l → isLayout l.last = false := by
  constructor
  · intro hfilled front newline back l htokens hnewline hfront
    obtain ⟨t, ht, hkind⟩ := hfilled front newline back htokens hnewline
    have heof := hfront.kind_ne_eof t (mem_of_getLast? ht)
    rw [hfront.last_eq, ht]
    simp [isLayout, hkind, heof]
  · intro hlast front newline back htokens hnewline
    obtain ⟨m, n, htrace, -⟩ := (Scan.ends_of file source).of_eof h
    rw [htokens] at htrace
    obtain ⟨l, hfront, -⟩ := htrace.append
    have hinline := hlast front newline back l htokens hnewline hfront
    rw [hfront.last_eq] at hinline
    cases ht : front.getLast? with
    | none =>
      rw [ht] at hinline
      cases hinline
    | some t =>
      rw [ht] at hinline
      refine ⟨t, rfl, ?_⟩
      simp [isLayout] at hinline
      tauto

/-- The scanner walks to the start of a line: the text up to there ends a line and leaves nothing
open. -/
theorem exists_line_of_walks {p : Lexer} (hwalks : (Lexer.start file source).Walks p)
    (hp : p.AtLine) (hgap : Lexeme.GapsLine p.cursor.rest) :
    ∃ u line v, source = u ++ (line ++ v) ∧ (u = "" ∨ u.toList.getLast? = some '\n') ∧
      leavesOpen u = false ∧ IsEmptyLine line ∧ hasContent line.toList := by
  obtain ⟨n, hcursor, comment, hafter, -⟩ := hwalks
  have hrest : p.cursor.rest = (Cluster.segment source).drop n := by
    rw [hcursor, Cursor.rest_skip]
    rfl
  have hsplit : Cluster.segment source = (Cluster.segment source).take n ++ p.cursor.rest := by
    rw [hrest, take_append_drop]
  have hline : (Cluster.segment source).take n = [] ∨
      Lexeme.EndsLine ((Cluster.segment source).take n) := by
    have hstart := @Cursor.startsLine_skip (Lexer.start file source).cursor (Nat.le_refl 1) n
    rw [← hcursor, hp.column] at hstart
    rcases eq_nil_or_concat' ((Cluster.segment source).take n) with hnil | ⟨init, last, heq⟩
    · exact .inl hnil
    · refine .inr ⟨init, last, heq, ?_⟩
      by_contra hlast
      have hinside := Lexeme.startsLine_of_endsInside ⟨init, last, heq, hlast⟩ true
      exact absurd (hstart.trans hinside) (by decide)
  obtain ⟨u, text, hsource, hu, htext, hfeed⟩ := exists_segment_split hsplit hline
  rw [← htext] at hgap
  obtain ⟨line, v, rfl, hempty⟩ := exists_isEmptyLine hgap
  refine ⟨u, line, v, hsource, hfeed, ?_, hempty, (hempty.blankLines v).mp (htext ▸ hp.content)⟩
  have hafter' : Nesting.after {} (Cluster.segment u) = some ⟨p.brackets, .between comment⟩ := by
    rw [hu]
    exact hafter
  rw [leavesOpen, hafter', hp.brackets]
  cases comment <;> rfl

/-- Every line break comes after a token of its line just if every line of blanks, outside brackets
and strings, is blank to the scanner: a line of spaces, perhaps with a comment, and a line break. -/
theorem linesFilled_iff (h : (Scan.of file source).ending = .eof eof) :
    (Scan.of file source).LinesFilled ↔
      ∀ u line v, source = u ++ (line ++ v) → (u = "" ∨ u.toList.getLast? = some '\n') →
        leavesOpen u = false → IsEmptyLine line → hasContent line.toList = false := by
  rw [linesFilled_iff_last h]
  constructor
  · rintro hfilled u line v rfl hu hopen hempty
    by_contra hcontent
    have hblank := (hempty.blankLines v).mpr (by simpa using hcontent)
    obtain ⟨front, hfront⟩ := (Lexer.lined_start file hu).exists_fronts rfl hopen
    rcases hfront.ends with ⟨k, hdone, -, hfault, htrace⟩ | ⟨t, fault, -, hends⟩
    · have hbefore := htrace (Cluster.segment (line ++ v))
      rw [← start_append hu] at hbefore
      have hends := (k.moved ⟨0, 0, Cluster.segment (line ++ v)⟩).ends_run (Nat.lt_succ_self _) hfault
      have hscan := Scan.of_ends (hbefore.ends hends)
      rw [hscan] at h
      obtain ⟨m, n, hlater, hend, heof⟩ := hends.of_eof h
      obtain ⟨between, newline, back, j, htokens, hnewline, hbetween, hlast⟩ :=
        (hdone.beforeGap hblank (hempty.gapsLine v)).exists_newline hlater hend heof
      have hinline := hfilled (front ++ between) newline back j
        (by rw [hscan, behind, htokens, List.append_assoc]) hnewline (hbefore.trans hbetween)
      rw [hinline] at hlast
      cases hlast
    · have hfaulty := hends (Cluster.segment (line ++ v))
      rw [← start_append hu] at hfaulty
      rw [Scan.of_ends hfaulty] at h
      cases h
  · intro hlines front newline back l htokens hnewline hfront
    by_contra hlast
    obtain ⟨m, n, htrace, -⟩ := (Scan.ends_of file source).of_eof h
    rw [htokens] at htrace
    obtain ⟨l', hfront', hlater⟩ := htrace.append
    obtain rfl : l' = l := hfront'.after_eq.symm.trans hfront.after_eq
    cases hlater with
    | step _ hscan =>
      have hplaced := hfront.placed ⟨Lexer.walks_here rfl rfl, fun _ => .inl rfl⟩
      obtain ⟨p, hwalks, hp, hgap⟩ := hplaced.exists_line (by simpa using hlast) hscan hnewline
      obtain ⟨u, line, v, hsource, hu, hopen, hempty, hcontent⟩ :=
        exists_line_of_walks hwalks hp hgap
      rw [hlines u line v hsource hu hopen hempty] at hcontent
      cases hcontent

/-- Carriage returns inside brackets give no line break, a mark on the last space of a margin does. -/
theorem marked_margin_unfilled :
    leavesOpen "html:\n  p(\r\r\n)\n" = false ∧ IsEmptyLine "  \u0301\n" ∧
      (Scan.of "page" ("html:\n  p(\r\r\n)\n" ++ ("  \u0301\n" ++ "  b\n"))).ending =
        .eof ⟨.eof, "", 6, 1, 24⟩ ∧
      ¬(Scan.of "page" ("html:\n  p(\r\r\n)\n" ++ ("  \u0301\n" ++ "  b\n"))).LinesFilled := by
  have hopen : leavesOpen "html:\n  p(\r\r\n)\n" = false := by decide +kernel
  have hempty : IsEmptyLine "  \u0301\n" :=
    ⟨by decide +kernel, by decide +kernel, by decide +kernel⟩
  have hend : (Scan.of "page" ("html:\n  p(\r\r\n)\n" ++ ("  \u0301\n" ++ "  b\n"))).ending =
      .eof ⟨.eof, "", 6, 1, 24⟩ := by decide +kernel
  refine ⟨hopen, hempty, hend, fun hfilled => ?_⟩
  have hblank := (linesFilled_iff hend).mp hfilled _ _ _ rfl (.inr (by decide +kernel)) hopen hempty
  exact absurd hblank (by decide +kernel)

/-- A line of two carriage returns: its line break follows that of the line before. -/
theorem returns_give_line_break :
    (Scan.of "page" "a\n\r\r\nb\n").all.map (·.kind) =
      [.identifier, .newline, .newline, .identifier, .newline, .eof] := by
  decide +kernel

end Scan

end Stencil
