import Stencil.Proofs.Token.Moving
import Stencil.Proofs.Token.Scanning

/-!
# What a token tells of the scanner

The scanner's state after a token is known from the token and the state before it: where it stands,
whether words are style words, and whether brackets are open. So the state at any place of a scan is
known from the tokens before it.
-/
namespace Stencil

open Text (Cluster isLetter isDigit)
open List Lexeme

/-- A word in the first column is a heading; it decides how words are read up to the next one. -/
def WordMode.after (mode : WordMode) (t : Token) : WordMode :=
  if t.column = 1 && t.isWord then if t.kind = .keyword .css then .style else .plain else mode

theorem WordMode.after_of_not_isWord {mode : WordMode} {t : Token} (h : t.isWord = false) :
    mode.after t = mode := by
  rw [after, h, Bool.and_false, if_neg Bool.false_ne_true]

/-! ## The last cluster of a token -/

namespace Lexeme

/-- The clusters end within a line. -/
def EndsInside (ks : List Cluster) : Prop := ∃ init last, ks = init ++ [last] ∧ last.lead ≠ '\n'

variable {ks : List Cluster} {k : Cluster} {length : Nat} {c : Char} {next : Option Char}
  {kind : TokenKind}

theorem endsInside_of_forall (hne : ks ≠ []) (h : ∀ k ∈ ks, k.lead ≠ '\n') : EndsInside ks :=
  ⟨ks.dropLast, ks.getLast hne, (dropLast_append_getLast hne).symm, h _ (getLast_mem hne)⟩

theorem EndsInside.cons (h : EndsInside ks) : EndsInside (k :: ks) := by
  obtain ⟨init, last, rfl, hlast⟩ := h
  exact ⟨k :: init, last, rfl, hlast⟩

theorem endsInside_run {part : Char → Bool} (hk : part k.lead) (hpart : part '\n' = false) :
    EndsInside ((k :: ks).take (run part (k :: ks))) := by
  refine endsInside_of_forall ?_ fun j hj hline => ?_
  · rw [Ne, take_eq_nil_iff, not_or]
    exact ⟨Nat.pos_iff_ne_zero.mp (Lexer.run_pos hk), cons_ne_nil _ _⟩
  · have hpos := mem_take_run hj
    rw [hline, hpart] at hpos
    cases hpos

theorem endsInside_number (hk : isDigit k.lead) :
    EndsInside ((k :: ks).take (number (k :: ks))) := by
  refine endsInside_of_forall ?_ fun j hj hline => ?_
  · rw [number_cons hk, take_succ_cons]
    exact cons_ne_nil _ _
  · have hpart := mem_take_number hj
    rw [hline] at hpart
    rcases hpart with hdigit | hother | hother
    · exact absurd hdigit (by decide)
    · exact absurd hother (by decide)
    · exact absurd hother (by decide)

theorem endsInside_string {quote : Char} (hquote : quote ≠ '\n')
    (h : stringRest quote ks = some length) : EndsInside (ks.take length) := by
  obtain ⟨front, more, rfl, hfront, rfl⟩ := stringRest_eq_some.mp h
  rw [take_left]
  clear h
  induction hfront with
  | @mark k hk => exact ⟨[], k, rfl, hk ▸ hquote⟩
  | escape _ _ _ ih => exact ih.cons.cons
  | other _ _ _ ih => exact ih.cons

/-- A sign is one character, or two of which the second is not a line break either. -/
theorem operator_extent (h : operator c next = some (kind, length)) :
    length = 1 ∨ (length = 2 ∧ ∃ d, next = some d ∧ d ≠ '\r' ∧ d ≠ '\n') := by
  unfold operator at h
  dsimp only at h
  split at h <;> (try split at h) <;> cases h <;> simp_all

theorem endsInside_operator (hk : k.lead ≠ '\n')
    (h : operator k.lead (ks.head?.map (·.first)) = some (kind, length)) :
    EndsInside ((k :: ks).take length) := by
  rcases operator_extent h with rfl | ⟨rfl, d, hd, hreturn, hline⟩
  · exact ⟨[], k, rfl, hk⟩
  · obtain ⟨j, hj, rfl⟩ := Option.map_eq_some_iff.mp hd
    obtain ⟨rest, rfl⟩ := head?_eq_some_iff.mp hj
    exact ⟨[k], j, rfl, by rwa [Cluster.lead_of_first hreturn]⟩

theorem operator_inline (h : operator c next = some (kind, length)) :
    Lexer.isLayout kind = false ∧ kind ≠ .identifier := by
  unfold operator at h
  dsimp only at h
  split at h <;> (try split at h) <;> cases h <;> exact ⟨rfl, TokenKind.noConfusion⟩

end Lexeme

theorem ofWord_cases (word : String) :
    TokenKind.ofWord word = .identifier ∨ ∃ k, TokenKind.ofWord word = .keyword k := by
  unfold TokenKind.ofWord
  cases Keyword.ofText? word with
  | none => exact .inl rfl
  | some k => exact .inr ⟨k, rfl⟩

/-! ## One token -/

namespace Lexer

variable {l m : Lexer} {t : Token} {k : Cluster} {rest : List Cluster} {result : Scanned} {n : Nat}

/-- Only line breaks, margins and the end of the source give tokens of layout. -/
theorem Takes.inline (h : l.Takes k rest result) (hok : result = .ok (t, m)) :
    isLayout t.kind = false := by
  cases h with
  | unterminated | unmatched | unexpected => cases hok
  | string | opening | closing | styleWord | number => cases hok; rfl
  | word =>
    cases hok
    have hkind : ∀ kind : TokenKind, (kind = .identifier ∨ ∃ k, kind = .keyword k) →
        isLayout kind = false := by
      rintro kind (rfl | ⟨k, rfl⟩) <;> rfl
    exact hkind _ (ofWord_cases _)
  | sign _ hsign =>
    cases hok
    exact (operator_inline hsign).1

/-- The scanner after a token, by the scanner before it. -/
structure Leaves (l : Lexer) (t : Token) (m : Lexer) : Prop where
  file : m.file = l.file
  cursor : ∃ n, m.cursor = l.cursor.skip n
  mode : m.mode = l.mode.after t
  /-- Only after a token of layout does a line start. -/
  line : m.cursor.column = 1 → isLayout t.kind = true
  /-- Lines and levels do not end inside brackets. -/
  outside : t.kind = .newline ∨ t.kind = .indent → m.brackets = []
  same : t.kind = .dedent ∨ t.kind = .eof → m.brackets = l.brackets

def Affects (l : Lexer) : Scanned → Prop
  | .ok (t, m) => l.Leaves t m
  | .error _ => True

/-- A gap in front changes nothing but the place. -/
theorem Affects.after_skip (h : Affects { l with cursor := l.cursor.skip n } result) :
    l.Affects result := by
  cases result with
  | error failure => trivial
  | ok next =>
    obtain ⟨hfile, ⟨j, hj⟩, hmode, hline, houtside, hsame⟩ := h
    exact ⟨hfile, ⟨n + j, hj.trans (Cursor.skip_add n j l.cursor).symm⟩, hmode, hline, houtside, hsame⟩

/-- A token on a line. -/
theorem leaves_inline (hkind : isLayout t.kind = false) (hline : 2 ≤ (l.cursor.skip n).column)
    (hfile : m.file = l.file) (hcursor : m.cursor = l.cursor.skip n)
    (hmode : m.mode = l.mode.after t) : l.Leaves t m where
  file := hfile
  cursor := ⟨n, hcursor⟩
  mode := hmode
  line := by
    intro hcolumn
    rw [hcursor] at hcolumn
    omega
  outside := by
    rintro (h | h) <;> rw [h] at hkind <;> cases hkind
  same := by
    rintro (h | h) <;> rw [h] at hkind <;> cases hkind

theorem mode_of_not_isWord (hword : t.isWord = false) (hmode : m.mode = l.mode) :
    m.mode = l.mode.after t := by
  rw [hmode, WordMode.after_of_not_isWord hword]

/-- A token of layout. -/
theorem leaves_layout (hkind : isLayout t.kind) (hfile : m.file = l.file)
    (hcursor : m.cursor = l.cursor.skip n) (hmode : m.mode = l.mode)
    (hbrackets : m.brackets = l.brackets)
    (hopen : t.kind = .newline ∨ t.kind = .indent → l.brackets = []) : l.Leaves t m where
  file := hfile
  cursor := ⟨n, hcursor⟩
  mode := by
    have hword : t.isWord = false := by
      unfold Token.isWord
      split
      · next heq => rw [heq] at hkind; cases hkind
      · next heq => rw [heq] at hkind; cases hkind
      · rfl
    rw [hmode, WordMode.after_of_not_isWord hword]
  line := fun _ => hkind
  outside := fun h => hbrackets.trans (hopen h)
  same := fun _ => hbrackets

theorem head?_literal (hrest : l.cursor.rest = k :: rest) {kind : TokenKind} (hn : 0 < n) :
    (l.take kind n).1.literal.toList.head? = some k.first := by
  obtain ⟨n, rfl⟩ := Nat.exists_eq_succ_of_ne_zero (Nat.pos_iff_ne_zero.mp hn)
  have htake : l.cursor.rest.take (n + 1) = k :: rest.take n := by rw [hrest, take_succ_cons]
  rw [take, token, htake, Cluster.text, String.toList_ofList, flatMap_cons]
  rfl

section Front

variable (hcolumn : 1 ≤ l.cursor.column) (hrest : l.cursor.rest = k :: rest)

include hcolumn

theorem two_le_column_skip {n : Nat} (hle : n ≤ l.cursor.rest.length)
    (h : Lexeme.EndsInside (l.cursor.rest.take n)) : 2 ≤ (l.cursor.skip n).column := by
  obtain ⟨init, last, htake, hlast⟩ := h
  have hlength : n = init.length + 1 := by
    rw [← Nat.min_eq_left hle, ← length_take, htake, length_append, length_singleton]
  have hsplit : l.cursor.rest = init ++ last :: l.cursor.rest.drop n := by
    rw [← singleton_append, ← append_assoc, ← htake, take_append_drop]
  rw [hlength]
  exact Cursor.two_le_column_skip hlast hcolumn hsplit

include hrest

theorem two_le_column_step (hk : k.lead ≠ '\n') : 2 ≤ (l.cursor.skip 1).column :=
  two_le_column_skip hcolumn (by rw [hrest]; exact Nat.succ_pos _) (by rw [hrest]; exact ⟨[], k, rfl, hk⟩)

/-- A word in the first column is a heading, and another leaves the mode as it is. -/
theorem affects_word (hk : isLetter k.lead) (hfile : m.file = l.file)
    (hcursor : m.cursor = l.cursor) (hmode : m.mode = l.headingMode k.lead) : l.Affects (.ok m.word) := by
  have hfirst : k.lead = k.first :=
    Cluster.lead_eq_first fun h => absurd hk (by rw [h]; decide)
  have hpart : isNamePart k.lead := by rw [isNamePart, hk]; rfl
  have hpos : 0 < Lexeme.run isNamePart m.cursor.rest := by
    rw [hcursor, hrest]
    exact run_pos hpart
  have hend := two_le_column_skip hcolumn (run_le isNamePart _)
    (hrest ▸ endsInside_run hpart (by decide))
  have hkind : m.word.1.kind = .identifier ∨ ∃ word, m.word.1.kind = .keyword word := ofWord_cases _
  have hcolumn' : m.word.1.column = l.cursor.column := by rw [← hcursor]; rfl
  have hhead : m.word.1.literal.toList.head? = some k.first :=
    head?_literal (hcursor ▸ hrest) hpos
  have hword : m.word.1.isWord := by
    unfold Token.isWord
    rcases hkind with heq | ⟨word, heq⟩
    · rw [heq]
    · rw [heq, hhead, ← hfirst]
      exact hk
  have hlater : m.word.2.mode =
      if m.word.1.kind = .keyword .css && m.cursor.column = 1 then .style else m.mode := rfl
  have hinline : isLayout m.word.1.kind = false := by
    rcases hkind with heq | ⟨word, heq⟩ <;> rw [heq] <;> rfl
  have hafter : m.word.2.mode = l.mode.after m.word.1 := by
    rw [hlater, hmode, headingMode, WordMode.after, hcolumn', hword, hk, hcursor]
    by_cases hfront : l.cursor.column = 1
    · simp [hfront]
    · simp [hfront]
  have hplace : m.word.2.cursor = l.cursor.skip (Lexeme.run isNamePart l.cursor.rest) := by
    rw [← hcursor]
    rfl
  have hleaves : l.Leaves m.word.1 m.word.2 := leaves_inline hinline hend hfile hplace hafter
  exact hleaves

theorem Takes.affects (hk : k.lead ≠ '\n') (h : l.Takes k rest result) : l.Affects result := by
  cases h with
  | unterminated | unmatched | unexpected => trivial
  | string hquote hlength =>
    have hle := (stringRest_pos hlength).2
    refine leaves_inline rfl (two_le_column_skip hcolumn ?_ ?_) rfl rfl (mode_of_not_isWord rfl rfl)
    · rw [hrest, length_cons]
      omega
    · rw [hrest]
      exact (endsInside_string hk hlength).cons
  | opening | closing =>
    exact leaves_inline rfl (two_le_column_step hcolumn hrest hk) rfl rfl (mode_of_not_isWord rfl rfl)
  | styleWord hstart =>
    refine leaves_inline rfl (two_le_column_skip hcolumn (run_le _ _) ?_) rfl rfl
      (mode_of_not_isWord rfl rfl)
    rw [hrest]
    exact endsInside_run (by rw [isStyleWordPart, hstart]; rfl) (by decide)
  | word hletter hmode => exact affects_word hcolumn hrest hletter rfl rfl hmode.symm
  | number hdigit =>
    refine leaves_inline rfl (two_le_column_skip hcolumn (number_le _) ?_) rfl rfl
      (mode_of_not_isWord rfl rfl)
    rw [hrest]
    exact endsInside_number hdigit
  | @sign kind length _ hsign =>
    obtain ⟨hkind, hname⟩ := operator_inline hsign
    have hfirst : isLetter k.first = false := by
      rw [← Cluster.lead_eq_first hk]
      exact (operator_start hsign).1
    have hword : (l.take kind length).1.isWord = false := by
      have hhead := @head?_literal l k rest length hrest kind (operator_kind hsign).1
      unfold Token.isWord
      split
      · next heq => exact absurd heq hname
      · rw [hhead]
        exact hfirst
      · rfl
    refine leaves_inline hkind (two_le_column_skip hcolumn ?_ ?_) rfl rfl
      (mode_of_not_isWord hword rfl)
    · rw [hrest]
      exact operator_le hsign
    · rw [hrest]
      exact endsInside_operator hk hsign

end Front

theorem Gives.affects (hcolumn : 1 ≤ l.cursor.column) (h : l.Gives result) : l.Affects result := by
  cases h with
  | lastLine _ hbrackets => exact leaves_layout (n := 0) rfl rfl rfl rfl rfl fun _ => hbrackets
  | lastLevel | eof =>
    exact leaves_layout (n := 0) rfl rfl rfl rfl rfl (by rintro (h | h) <;> cases h)
  | newline _ _ hbrackets => exact leaves_layout rfl rfl rfl rfl rfl fun _ => hbrackets
  | cluster hrest hk htakes => exact htakes.affects hcolumn hrest hk

theorem Lays.affects (h : l.Lays result) (hnone : l.brackets = []) : l.Affects result := by
  cases h with
  | tab | uneven => trivial
  | indent | dedent => exact leaves_layout rfl rfl rfl rfl rfl fun _ => hnone
  | pending => exact leaves_layout (n := 0) rfl rfl rfl rfl rfl fun _ => hnone

theorem Branches.affects (hcolumn : 1 ≤ l.cursor.column) (h : l.Branches result) :
    l.Affects result := by
  cases h with
  | gives hcomes hgives =>
    obtain ⟨n, rfl⟩ := hcomes.exists_skip
    exact (hgives.affects (Cursor.one_le_column_skip n hcolumn)).after_skip
  | lays hstart hlays => exact (hlays.affects hstart.brackets).after_skip

theorem leaves_of_scan (hcolumn : 1 ≤ l.cursor.column) (h : l.scan = .ok (t, m)) :
    l.Leaves t m := by
  have haffects := l.scan_branches.affects hcolumn
  rwa [h] at haffects

theorem Leaves.one_le_column (h : l.Leaves t m) (hcolumn : 1 ≤ l.cursor.column) :
    1 ≤ m.cursor.column := by
  obtain ⟨n, hn⟩ := h.cursor
  rw [hn]
  exact Cursor.one_le_column_skip n hcolumn

/-! ## All tokens up to a place -/

/-- The scanner after tokens, by the scanner before them. -/
structure Arrives (l : Lexer) (ts : List Token) (m : Lexer) : Prop where
  file : m.file = l.file
  cursor : ∃ n, m.cursor = l.cursor.skip n
  mode : m.mode = ts.foldl WordMode.after l.mode

namespace Trace

variable {ts : List Token}

theorem arrives (h : l.Trace ts m) (hcolumn : 1 ≤ l.cursor.column) : l.Arrives ts m := by
  induction h with
  | refl l => exact ⟨rfl, ⟨0, rfl⟩, rfl⟩
  | step hl hscan hkind hlater ih =>
    have hleaves := leaves_of_scan hcolumn hscan
    obtain ⟨hfile, ⟨j, hj⟩, hmode⟩ := ih (hleaves.one_le_column hcolumn)
    obtain ⟨n, hn⟩ := hleaves.cursor
    refine ⟨hfile.trans hleaves.file, ⟨n + j, ?_⟩, ?_⟩
    · rw [hj, Cursor.skip_add, ← hn]
    · rw [hmode, foldl_cons, ← hleaves.mode]

theorem one_le_column (h : l.Trace ts m) (hcolumn : 1 ≤ l.cursor.column) :
    1 ≤ m.cursor.column := by
  obtain ⟨n, hn⟩ := (h.arrives hcolumn).cursor
  rw [hn]
  exact Cursor.one_le_column_skip n hcolumn

end Trace

end Lexer
end Stencil
