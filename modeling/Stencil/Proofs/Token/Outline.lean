import Stencil.Proofs.Token.Lines

/-!
# Outlines

An outline is a line with the lines that belong under it, each of these deeper by the same number of
spaces. Its text is scanned into the tokens of its lines. What stands under a line comes between a
token that opens a level and one that closes it, however many levels end at the same place.
-/
namespace Stencil

open Lexer Written List
open Text (Cluster)
open Text.Cluster (ofChars ofChars_front)

/-- A line and what stands under it. -/
inductive Outline where
  | line (words : List Written) (under : List Outline)

namespace Outline

mutual

/-- The text of an outline, with so many spaces for each level. -/
def chars (width depth : Nat) : Outline → List Char
  | .line words under =>
    List.replicate (depth * width) ' ' ++
      (Written.line words ++ '\n' :: charsAll width (depth + 1) under)

def charsAll (width depth : Nat) : List Outline → List Char
  | [] => []
  | o :: os => o.chars width depth ++ charsAll width depth os

end

section Every

variable (Good : List Written → Prop)

mutual

/-- Every line of an outline is of one kind. -/
def Every : Outline → Prop
  | .line words under => Good words ∧ EveryAll under

def EveryAll : List Outline → Prop
  | [] => True
  | o :: os => o.Every ∧ EveryAll os

end

end Every

/-- Every line is scanned into its tokens. -/
abbrev AllScannable : List Outline → Prop := EveryAll fun words => Scans [] words []

theorem allScannable_append {os us : List Outline} (hos : AllScannable os) (hus : AllScannable us) :
    AllScannable (os ++ us) := by
  induction os with
  | nil => exact hus
  | cons o os ih => exact ⟨hos.1, ih hos.2⟩

end Outline

/-! ## The tokens of outlines -/

/-- The tokens are those of outlines that follow each other. -/
inductive Outlined : List Token → List Outline → Prop where
  | nil : Outlined [] []
  | line {words : List Written} {front rest : List Token} {newline : Token} {os : List Outline}
      (hfront : Stands front words) (hnewline : newline.kind = .newline)
      (hrest : Outlined rest os) :
      Outlined (front ++ newline :: rest) (.line words [] :: os)
  | nested {words : List Written} {front body rest : List Token}
      {newline indent dedent : Token} {under os : List Outline}
      (hfront : Stands front words) (hnewline : newline.kind = .newline)
      (hindent : indent.kind = .indent) (hunder : under ≠ []) (hbody : Outlined body under)
      (hdedent : dedent.kind = .dedent) (hrest : Outlined rest os) :
      Outlined (front ++ newline :: indent :: (body ++ dedent :: rest)) (.line words under :: os)

/-- The tokens of what stands under a line. -/
inductive Nested : List Token → List Outline → Prop where
  | none : Nested [] []
  | some {body : List Token} {indent dedent : Token} {under : List Outline}
      (hindent : indent.kind = .indent) (hunder : under ≠ []) (hbody : Outlined body under)
      (hdedent : dedent.kind = .dedent) : Nested (indent :: (body ++ [dedent])) under

namespace Outlined

variable {ts us : List Token} {os os' under : List Outline} {words : List Written}

theorem append (h : Outlined ts os) (h' : Outlined us os') : Outlined (ts ++ us) (os ++ os') := by
  induction h with
  | nil => exact h'
  | line hfront hnewline _ ih =>
    rw [append_assoc]
    exact .line hfront hnewline ih
  | nested hfront hnewline hindent hunder hbody hdedent _ _ ih =>
    simp only [append_assoc, cons_append]
    exact .nested hfront hnewline hindent hunder hbody hdedent ih

/-- The first line, what stands under it and what follows. -/
theorem cons (h : Outlined ts (.line words under :: os)) :
    ∃ front newline inner rest, ts = front ++ newline :: (inner ++ rest) ∧
      Stands front words ∧ newline.kind = .newline ∧ Nested inner under ∧
      Outlined rest os := by
  cases h with
  | line hfront hnewline hrest => exact ⟨_, _, [], _, rfl, hfront, hnewline, .none, hrest⟩
  | @nested _ front body rest newline indent dedent _ _ hfront hnewline hindent hunder hbody
      hdedent hrest =>
    refine ⟨front, newline, indent :: (body ++ [dedent]), rest, ?_, hfront, hnewline,
      .some hindent hunder hbody hdedent, hrest⟩
    simp

/-- A line with the tokens of what stands under it. -/
theorem of_nested {front inner : List Token} {newline : Token} (hfront : Stands front words)
    (hnewline : newline.kind = .newline) (hinner : Nested inner under) (hrest : Outlined ts os) :
    Outlined (front ++ newline :: (inner ++ ts)) (.line words under :: os) := by
  cases hinner with
  | none => exact .line hfront hnewline hrest
  | some hindent hunder hbody hdedent =>
    rw [cons_append, append_assoc]
    exact .nested hfront hnewline hindent hunder hbody hdedent hrest

theorem split (h : Outlined ts (os ++ os')) :
    ∃ front back, ts = front ++ back ∧ Outlined front os ∧ Outlined back os' := by
  induction os generalizing ts with
  | nil => exact ⟨[], ts, rfl, .nil, h⟩
  | cons o os ih =>
    obtain ⟨words, under⟩ := o
    obtain ⟨front, newline, inner, rest, rfl, hfront, hnewline, hinner, hrest⟩ := h.cons
    obtain ⟨first, back, rfl, hfirst, hback⟩ := ih hrest
    exact ⟨front ++ newline :: (inner ++ first), back, by simp,
      .of_nested hfront hnewline hinner hfirst, hback⟩

end Outlined

/-! ## The scanner between lines -/

/-- The levels that are open at a depth. -/
def levelsAt (width : Nat) : Nat → List Nat
  | 0 => [0]
  | depth + 1 => (depth + 1) * width :: levelsAt width depth

theorem headD_levelsAt (width depth : Nat) : (levelsAt width depth).headD 0 = depth * width := by
  cases depth with
  | zero => rw [Nat.zero_mul]; rfl
  | succ depth => rfl

theorem length_levelsAt (width depth : Nat) : (levelsAt width depth).length = depth + 1 := by
  induction depth with
  | zero => rfl
  | succ depth ih => rw [levelsAt, length_cons, ih]

/-- The clusters of a line at a depth that starts with a token. -/
def Deep (width depth : Nat) (ks : List Cluster) : Prop :=
  ∃ k js, ks = List.replicate (depth * width) ⟨' ', []⟩ ++ k :: js ∧ isGap k.lead = false

/-- What is left starts with a line that is not deeper, or there is nothing left. -/
def Shallow (width depth : Nat) (ks : List Cluster) : Prop :=
  ks = [] ∨ ∃ e ≤ depth, Deep width e ks

variable {width : Nat}

theorem Shallow.mono {depth : Nat} {ks : List Cluster} (h : Shallow width depth ks) :
    Shallow width (depth + 1) ks :=
  h.imp id fun ⟨e, he, hks⟩ => ⟨e, Nat.le_succ_of_le he, hks⟩

namespace Lexer

/-- The scanner stands at the start of a line, and these levels are open. -/
structure Fresh (l : Lexer) (mode : WordMode) (levels : List Nat) (ks : List Cluster) : Prop where
  rest : l.cursor.rest = ks
  column : l.cursor.column = 1
  brackets : l.brackets = []
  indents : l.indents = levels
  mode : l.mode = mode
  fault : l.fault = none
  last : l.last.isInline = false

/-- The scanner stands before a line, at its start or already after its margin. -/
def Before (l : Lexer) (mode : WordMode) (width depth : Nat) (ks : List Cluster) : Prop :=
  l.Fresh mode (levelsAt width depth) ks ∨
    ∃ k js, ks = List.replicate (depth * width) ⟨' ', []⟩ ++ k :: js ∧ isGap k.lead = false ∧
      l.On mode (levelsAt width depth) [] (k :: js)

variable {l m : Lexer} {mode : WordMode} {levels : List Nat} {width depth n : Nat} {k : Cluster}
  {ks : List Cluster}

/-- The first token is all that counts of where a scanner stands. -/
theorem Trace.of_scan_eq {ts : List Token} {t : Token} {n : Lexer} (h : m.Trace (ts ++ [t]) n)
    (hfault : l.fault = none) (hscan : l.scan = m.scan) : l.Trace (ts ++ [t]) n := by
  generalize hall : ts ++ [t] = all at h ⊢
  cases h with
  | refl => simp at hall
  | step hm hfirst hkind hlater => exact .step hfault (hscan.trans hfirst) hkind hlater

/-- After a line break the next line starts. -/
theorem fresh_of_newline (hrest : l.cursor.rest = k :: ks) (hk : k.lead = '\n')
    (hbrackets : l.brackets = []) (hfault : l.fault = none) :
    Fresh { (l.take .newline 1).2 with last := .newline } l.mode l.indents ks := by
  have hcolumn := @Cursor.column_skip [] k hk l.cursor ks hrest
  refine ⟨?_, hcolumn, hbrackets, rfl, rfl, hfault, rfl⟩
  exact (Cursor.rest_skip 1 l.cursor).trans (by rw [hrest]; rfl)

/-- The line ends, and the next one starts. -/
theorem Within.newline (h : l.Within mode levels [] (k :: ks)) (hk : k.lead = '\n') :
    ∃ t m, l.Trace [t] m ∧ t.kind = .newline ∧ m.Fresh mode levels ks := by
  have hcontent := content_of_newline h.rest hk h.brackets
  have hfresh := fresh_of_newline h.rest hk h.brackets h.fault
  rw [h.mode, h.indents] at hfresh
  exact ⟨_, _, h.at.trace hcontent TokenKind.noConfusion, rfl, hfresh⟩

namespace Fresh

theorem margined (h : l.Fresh mode levels (replicate n ⟨' ', []⟩ ++ k :: ks))
    (hk : isGap k.lead = false) : l.Margined n k ks :=
  ⟨h.rest, hk, h.column, h.brackets⟩

theorem inside (h : l.Fresh mode levels (replicate n ⟨' ', []⟩ ++ k :: ks))
    (hk : isGap k.lead = false) {opened : List Nat} (hopened : opened.headD 0 = n)
    (last : TokenKind) :
    On { l.pastMargin with indents := opened, last := last } mode opened [] (k :: ks) :=
  ⟨(h.margined hk).rest_pastMargin, h.brackets, rfl, h.mode, h.fault,
    (h.margined hk).column_pastMargin.imp id fun ⟨hcolumn, hn⟩ =>
      ⟨hcolumn, hopened.trans hn, k, ks, rfl, hk⟩⟩

/-- A deeper line opens a level. -/
theorem indent (h : l.Fresh mode (levelsAt width depth) ks) (hks : Deep width (depth + 1) ks)
    (hwidth : 0 < width) :
    ∃ t m, l.Trace [t] m ∧ t.kind = .indent ∧ m.Before mode width (depth + 1) ks := by
  obtain ⟨k, js, rfl, hk⟩ := hks
  have hmargined := h.margined hk
  have hdeeper : l.indents.headD 0 < (depth + 1) * width := by
    rw [h.indents, headD_levelsAt]
    exact Nat.mul_lt_mul_of_pos_right (Nat.lt_succ_self depth) hwidth
  have hscan := (Lays.indent hmargined.not_tab (by rwa [hmargined.margin_eq])).layout_eq
  rw [← hmargined.scan_layout, hmargined.margin_eq, h.indents] at hscan
  exact ⟨_, _, .step h.fault hscan TokenKind.noConfusion (.refl _), rfl,
    .inr ⟨k, js, rfl, hk, h.inside hk rfl _⟩⟩

/-- A line that is less deep closes a level. The last level that it closes is closed after its
margin. -/
theorem dedent (h : l.Fresh mode (levelsAt width (depth + 1)) ks) (hks : Deep width n ks)
    (hwidth : 0 < width) (hn : n ≤ depth) :
    ∃ t m, l.Trace [t] m ∧ t.kind = .dedent ∧ m.Before mode width depth ks := by
  obtain ⟨k, js, rfl, hk⟩ := hks
  have hmargined := h.margined hk
  have hlower : n * width ≤ depth * width := Nat.mul_le_mul_right width hn
  have htop : n * width < l.indents.headD 0 := by
    rw [h.indents, headD_levelsAt, Nat.succ_mul]
    omega
  have houter : l.indents.tail.headD 0 = depth * width := by
    rw [h.indents]
    exact headD_levelsAt width depth
  rcases Nat.eq_or_lt_of_le hlower with hlast | hmore
  · have hscan := (Lays.dedent hmargined.not_tab (by rwa [hmargined.margin_eq])
      (by rw [hmargined.margin_eq, houter, hlast])).layout_eq
    rw [← hmargined.scan_layout, h.indents] at hscan
    refine ⟨_, _, .step h.fault hscan TokenKind.noConfusion (.refl _), rfl,
      .inr ⟨k, js, by rw [hlast], hk, h.inside hk ?_ _⟩⟩
    exact (headD_levelsAt width depth).trans hlast.symm
  · have hscan := (Lays.pending hmargined.not_tab (by rwa [hmargined.margin_eq])
      (by rwa [hmargined.margin_eq, houter])).layout_eq
    rw [← hmargined.scan_layout, h.indents] at hscan
    exact ⟨_, _, .step h.fault hscan TokenKind.noConfusion (.refl _), rfl,
      .inl ⟨h.rest, h.column, h.brackets, rfl, h.mode, h.fault, rfl⟩⟩

/-- At the end of the source nothing is left but the levels. -/
theorem scan_end (h : l.Fresh mode levels []) :
    l.scan = .ok (if 1 < levels.length then (l.token .dedent "", { l with indents := levels.tail })
      else (l.token .eof "", l)) := by
  have hlast : isLayout l.last := by
    have hinline := h.last
    rwa [TokenKind.isInline, Bool.not_eq_false'] at hinline
  rw [scan_of_empty h.rest, finish_of_isLayout fun _ => hlast, h.indents]

end Fresh

namespace Before

/-- In front of a line at the depth that is open, the line itself comes next. -/
theorem line (h : l.Before mode width depth (replicate (depth * width) ⟨' ', []⟩ ++ k :: ks))
    (hk : isGap k.lead = false) :
    ∃ m : Lexer, m.On mode (levelsAt width depth) [] (k :: ks) ∧ l.fault = none ∧
      l.scan = m.scan := by
  rcases h with h | ⟨j, js, heq, hj, h⟩
  · have htop := headD_levelsAt width depth
    have hinside := h.inside hk htop l.last
    refine ⟨_, hinside, h.fault, ?_⟩
    rw [hinside.scan_eq, (h.margined hk).scan_same (by rw [h.indents, htop]), ← h.indents]
    rfl
  · obtain ⟨rfl, rfl⟩ := cons.inj (append_cancel_left heq)
    exact ⟨l, h, h.fault, rfl⟩

/-- A line that is less deep closes a level, and so does the end of the source. -/
theorem dedent (h : l.Before mode width (depth + 1) ks) (hwidth : 0 < width)
    (hks : Shallow width depth ks) :
    ∃ t m, l.Trace [t] m ∧ t.kind = .dedent ∧ m.Before mode width depth ks := by
  rcases h with h | ⟨k, js, rfl, hk, h⟩
  · rcases hks with rfl | ⟨e, he, hks⟩
    · have hscan : l.scan =
          .ok (l.token .dedent "", { l with indents := levelsAt width depth }) := by
        rw [h.scan_end, length_levelsAt, if_pos (by omega)]
        rfl
      exact ⟨_, _, .step h.fault hscan TokenKind.noConfusion (.refl _), rfl,
        .inl ⟨h.rest, h.column, h.brackets, rfl, h.mode, h.fault, rfl⟩⟩
    · exact h.dedent hks hwidth he
  · -- After the margin of a line no other line comes first.
    rcases hks with hnil | ⟨e, he, j, es, heq, hj⟩
    · simp at hnil
    · have hsame := length_takeWhile_spaces hk ((depth + 1) * width) js
      rw [heq, length_takeWhile_spaces hj] at hsame
      have hle := Nat.le_of_mul_le_mul_right (Nat.le_of_eq hsame.symm) hwidth
      omega

/-- After the last level the source ends. -/
theorem scan_eof (h : l.Before mode width 0 []) : l.scan = .ok (l.token .eof "", l) := by
  rcases h with h | ⟨k, js, hnil, _⟩
  · exact h.scan_end
  · simp at hnil

end Before

end Lexer

/-! ## Scanning outlines -/

/-- The scanner takes lines of one kind from a margin on. -/
structure ScansLines (mode : WordMode) (low : Nat) (Good : List Written → Prop) : Prop where
  first {words : List Written} (h : Good words) :
    ∃ c cs, Written.line words = c :: cs ∧ isSolid c = true
  line {words : List Written} (h : Good words) {l : Lexer} {levels : List Nat} {rest : List Char}
    (hlow : low ≤ levels.headD 0)
    (hl : l.On mode levels [] (ofChars (Written.line words ++ '\n' :: rest))) :
    ∃ front newline m, l.Trace (front ++ [newline]) m ∧ Stands front words ∧
      newline.kind = .newline ∧ m.Fresh mode levels (ofChars rest)

/-- The clusters of such a line after its margin. -/
theorem ScansLines.deep {mode : WordMode} {low : Nat} {Good : List Written → Prop}
    (hlines : ScansLines mode low Good) {words : List Written} (h : Good words) (n : Nat)
    (rest : List Char) :
    ∃ k ks, isGap k.lead = false ∧ ofChars (Written.line words ++ rest) = k :: ks ∧
      ofChars (replicate n ' ' ++ (Written.line words ++ rest)) = replicate n ⟨' ', []⟩ ++ k :: ks := by
  obtain ⟨c, cs, hc, hsolid⟩ := hlines.first h
  obtain ⟨k, ks, hks, -, hlead⟩ := ofChars_front (isApart_of_isSolid hsolid) (cs ++ rest)
  rw [hc, cons_append, Cluster.ofChars_plain, hks, map_replicate]
  · exact ⟨k, ks, by rw [hlead]; exact (isSolid_iff.mp hsolid).2, rfl, rfl⟩
  · intro d hd
    rw [eq_of_mem_replicate hd]
    rfl
  · rintro _ ⟨⟩
    exact isApart_of_isSolid hsolid

namespace Outline

variable {mode : WordMode} {low width depth : Nat} {Good : List Written → Prop}
  {os : List Outline} {rest : List Char}

theorem deep_charsAll (hlines : ScansLines mode low Good) {o : Outline}
    (h : EveryAll Good (o :: os)) (width depth : Nat) (rest : List Char) :
    Deep width depth (ofChars (charsAll width depth (o :: os) ++ rest)) := by
  obtain ⟨words, under⟩ := o
  rw [charsAll, chars]
  simp only [append_assoc, cons_append]
  obtain ⟨k, ks, hk, -, hks⟩ := hlines.deep h.1.1 (depth * width)
    ('\n' :: (charsAll width (depth + 1) under ++ (charsAll width depth os ++ rest)))
  exact ⟨k, ks, hks, hk⟩

theorem shallow_charsAll (hlines : ScansLines mode low Good) (h : EveryAll Good os)
    (hrest : Shallow width depth (ofChars rest)) :
    Shallow width depth (ofChars (charsAll width depth os ++ rest)) := by
  cases os with
  | nil => exact hrest
  | cons o os => exact .inr ⟨depth, Nat.le_refl depth, deep_charsAll hlines h width depth rest⟩

/-- One level is opened for what stands under a line and closed before what follows. -/
theorem trace_under (hlines : ScansLines mode low Good) {under : List Outline}
    (h : EveryAll Good under) (hwidth : 0 < width) {l : Lexer}
    (hl : l.Fresh mode (levelsAt width depth) (ofChars (charsAll width (depth + 1) under ++ rest)))
    (hrest : Shallow width depth (ofChars rest)) (hbody : ∀ k : Lexer,
      k.Before mode width (depth + 1) (ofChars (charsAll width (depth + 1) under ++ rest)) →
      ∃ ts m, k.Trace ts m ∧ Outlined ts under ∧ m.Before mode width (depth + 1) (ofChars rest)) :
    ∃ inner m, l.Trace inner m ∧ Nested inner under ∧ m.Before mode width depth (ofChars rest) := by
  cases under with
  | nil => exact ⟨[], l, .refl l, .none, .inl hl⟩
  | cons o os =>
    obtain ⟨indent, p, hopen, hindent, hbefore⟩ :=
      hl.indent (deep_charsAll hlines h width (depth + 1) rest) hwidth
    obtain ⟨body, q, htrace, houtlined, hafter⟩ := hbody p hbefore
    obtain ⟨dedent, m, hclose, hdedent, hdone⟩ := hafter.dedent hwidth hrest
    exact ⟨indent :: (body ++ [dedent]), m, hopen.trans (htrace.trans hclose),
      .some hindent (cons_ne_nil o os) houtlined hdedent, hdone⟩

mutual

theorem trace (hlines : ScansLines mode low Good) (o : Outline) (h : o.Every Good)
    {width depth : Nat} (hwidth : 0 < width) (hlow : low ≤ depth * width) {l : Lexer}
    {rest : List Char} (hl : l.Before mode width depth (ofChars (o.chars width depth ++ rest)))
    (hrest : Shallow width depth (ofChars rest)) :
    ∃ ts m, l.Trace ts m ∧ Outlined ts [o] ∧ m.Before mode width depth (ofChars rest) := by
  cases o with
  | line words under =>
    obtain ⟨hwords, hunder⟩ := h
    rw [chars, append_assoc, append_assoc, cons_append] at hl
    obtain ⟨k, ks, hk, hks, hdeep⟩ :=
      hlines.deep hwords (depth * width) ('\n' :: (charsAll width (depth + 1) under ++ rest))
    rw [hdeep] at hl
    obtain ⟨n, hn, hfault, hscan⟩ := hl.line hk
    rw [← hks] at hn
    obtain ⟨front, newline, p, hline, hfront, hnewline, hfresh⟩ :=
      hlines.line hwords (by rwa [headD_levelsAt]) hn
    have hdeeper : low ≤ (depth + 1) * width := by
      rw [Nat.succ_mul]
      omega
    obtain ⟨inner, m, htrace, hinner, hdone⟩ := trace_under hlines hunder hwidth hfresh hrest
      fun q hq => traceAll hlines under hunder hwidth hdeeper hq hrest.mono
    refine ⟨front ++ newline :: (inner ++ []), m, ?_, .of_nested hfront hnewline hinner .nil, hdone⟩
    have hwhole := (hline.of_scan_eq hfault hscan).trans htrace
    rwa [append_assoc, singleton_append, ← append_nil inner] at hwhole

theorem traceAll (hlines : ScansLines mode low Good) (os : List Outline)
    (h : EveryAll Good os) {width depth : Nat} (hwidth : 0 < width) (hlow : low ≤ depth * width)
    {l : Lexer} {rest : List Char}
    (hl : l.Before mode width depth (ofChars (charsAll width depth os ++ rest)))
    (hrest : Shallow width depth (ofChars rest)) :
    ∃ ts m, l.Trace ts m ∧ Outlined ts os ∧ m.Before mode width depth (ofChars rest) := by
  cases os with
  | nil => exact ⟨[], l, .refl l, .nil, hl⟩
  | cons o os =>
    rw [charsAll, append_assoc] at hl
    obtain ⟨ts, m, htrace, hts, hm⟩ :=
      trace hlines o h.1 hwidth hlow hl (shallow_charsAll hlines h.2 hrest)
    obtain ⟨us, n, htrace', hus, hn⟩ := traceAll hlines os h.2 hwidth hlow hm hrest
    exact ⟨ts ++ us, n, htrace.trans htrace', hts.append hus, hn⟩

end

end Outline

/-! ## Outlines of words -/

/-- Lines of words may stand at any margin. -/
theorem scansLines_words : ScansLines .plain 0 fun words => Scans [] words [] where
  first h := h.first
  line {words} h {l levels rest} _ hl := by
    obtain ⟨m, ⟨front, htrace, hfront, _⟩, hpast⟩ := h.reaches l _ _ hl (.inl rfl) rfl
    rw [Past, Cluster.ofChars_lineFeed] at hpast
    obtain ⟨newline, n, hnew, hnewline, hfresh⟩ := hpast.newline (Cluster.lead_single _)
    exact ⟨front, newline, n, htrace.trans hnew, ⟨_, hfront⟩, hnewline, hfresh⟩

/-- The text of outlines is scanned into their tokens. -/
theorem Outline.scan_charsAll {os : List Outline} (h : AllScannable os) (hwidth : 0 < width)
    (file : String) :
    ∃ ts eof, Scan.of file (String.ofList (charsAll width 0 os)) = ⟨ts, .eof eof⟩ ∧
      eof.kind = .eof ∧ Outlined ts os := by
  have hstart : (Lexer.start file (String.ofList (charsAll width 0 os))).Before .plain width 0
      (ofChars (charsAll width 0 os ++ [])) := by
    rw [append_nil]
    exact .inl ⟨Cluster.segment_ofList _, rfl, rfl, rfl, rfl, rfl, rfl⟩
  obtain ⟨ts, m, htrace, hts, hm⟩ :=
    traceAll scansLines_words os h hwidth (Nat.zero_le _) hstart (.inl rfl)
  exact ⟨ts, _, Scan.of_ends (.eof htrace hm.scan_eof rfl), rfl, hts⟩

end Stencil
