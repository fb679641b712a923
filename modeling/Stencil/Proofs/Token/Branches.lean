import Mathlib.Data.List.Basic
import Stencil.Token.Lexer

/-!
# The branches of a scan

Every way that one scan can go, with what decides on it. At the start of a line blank lines are
passed over and the margin is compared with the open levels; then, as anywhere else, the gap in front
of a token is passed over, and the cluster after it decides on the token.
-/
namespace Stencil

open Text (Cluster isLetter isDigit)
open List

/-! ## Sizes -/

namespace Text

theorem byteSize_append (cs ds : List Char) : byteSize (cs ++ ds) = byteSize cs + byteSize ds := by
  induction cs with
  | nil => simp [byteSize]
  | cons c cs ih => simp only [cons_append, byteSize, ih]; omega

theorem utf8ByteSize_ofList (cs : List Char) : (String.ofList cs).utf8ByteSize = byteSize cs := by
  induction cs with
  | nil => rfl
  | cons c cs ih =>
    rw [String.ofList_cons, String.utf8ByteSize_append, String.utf8ByteSize_singleton, ih, byteSize]

namespace Cluster

/-- The number of bytes of clusters. -/
def bytes (ks : List Cluster) : Nat := byteSize (ks.flatMap chars)

@[simp] theorem bytes_nil : bytes [] = 0 := rfl

theorem bytes_cons (k : Cluster) (ks : List Cluster) : bytes (k :: ks) = k.size + bytes ks := by
  rw [bytes, flatMap_cons, byteSize_append]
  rfl

theorem bytes_append (ks ls : List Cluster) : bytes (ks ++ ls) = bytes ks + bytes ls := by
  rw [bytes, flatMap_append, byteSize_append]
  rfl

theorem utf8ByteSize_text (ks : List Cluster) : (text ks).utf8ByteSize = bytes ks :=
  utf8ByteSize_ofList _

theorem size_pos (k : Cluster) : 0 < k.size := by
  have := k.first.utf8Size_pos
  simp only [size, chars, byteSize]
  omega

theorem length_le_bytes (ks : List Cluster) : ks.length ≤ bytes ks := by
  induction ks with
  | nil => simp
  | cons k ks ih =>
    have := k.size_pos
    rw [bytes_cons, length_cons]
    omega

variable {k : Cluster}

/-- Only a line break is led by another character than its first. -/
theorem lead_eq_first (h : k.lead ≠ '\n') : k.lead = k.first := by
  unfold lead at h ⊢
  split at h
  · exact absurd rfl h
  · next hchars => rw [if_neg hchars]

theorem first_of_lead (h : k.lead = '\n') : k.first = '\n' ∨ k.first = '\r' := by
  unfold lead at h
  split at h
  · next hchars => exact .inr (cons.inj hchars).1
  · exact .inl h

theorem lead_of_first (h : k.first ≠ '\r') : k.lead = k.first := by
  unfold lead
  split
  · next hchars => exact absurd (cons.inj hchars).1 h
  · rfl

end Cluster
end Text

namespace Cursor

theorem rest_skip (n : Nat) (c : Cursor) : (c.skip n).rest = c.rest.drop n := by
  induction n generalizing c with
  | zero => rfl
  | succ n ih =>
    obtain ⟨rest, line, column, offset⟩ := c
    rw [skip, ih]
    cases rest with
    | nil => simp [step]
    | cons k ks => simp only [step, drop_succ_cons]; split <;> rfl

theorem offset_skip (n : Nat) (c : Cursor) :
    (c.skip n).offset = c.offset + Cluster.bytes (c.rest.take n) := by
  induction n generalizing c with
  | zero => simp [skip]
  | succ n ih =>
    obtain ⟨rest, line, column, offset⟩ := c
    rw [skip, ih]
    cases rest with
    | nil => simp [step]
    | cons k ks =>
      simp only [step, take_succ_cons, Cluster.bytes_cons]
      split <;> simp only <;> omega

theorem skip_add (n m : Nat) (c : Cursor) : c.skip (n + m) = (c.skip n).skip m := by
  induction n generalizing c with
  | zero => rw [Nat.zero_add, skip]
  | succ n ih => rw [Nat.add_right_comm, skip, skip, ih]

/-- A line starts after a line break. -/
theorem column_skip {init : List Cluster} {k : Cluster} (hk : k.lead = '\n') (c : Cursor)
    {rest : List Cluster} (hrest : c.rest = init ++ k :: rest) :
    (c.skip (init.length + 1)).column = 1 := by
  have hlast : (c.skip init.length).rest = k :: rest := by
    rw [rest_skip, hrest, drop_left]
  rw [skip_add]
  generalize c.skip init.length = d at hlast
  obtain ⟨ks, line, column, offset⟩ := d
  cases hlast
  simp [skip, step, hk]

theorem skip_of_empty {c : Cursor} (h : c.rest = []) (n : Nat) : c.skip n = c := by
  induction n with
  | zero => rfl
  | succ n ih =>
    obtain ⟨rest, line, column, offset⟩ := c
    cases h
    exact ih

end Cursor

variable {c : Char}

theorem not_isLetter_of_isDigit (h : isDigit c) : isLetter c = false := by
  rw [Bool.eq_false_iff]
  intro hletter
  simp only [isLetter, isDigit, Bool.or_eq_true, Bool.and_eq_true, decide_eq_true_eq, beq_iff_eq,
    Char.le_def, UInt32.le_iff_toNat_le] at h hletter
  rcases hletter with (hletter | hletter) | rfl <;> simp_all <;> omega

/-- No bracket is an opening and a closing one. -/
theorem Bracket.ofOpening?_of_closing {b : Bracket} (h : Bracket.ofClosing? c = some b) :
    Bracket.ofOpening? c = none := by
  have hclosing : b.closing = c := by simpa using find?_some h
  rw [← hclosing]
  cases b <;> rfl

/-! ## Between tokens -/

namespace Lexeme

/-- Blanks, line breaks and comments. A comment goes up to a line break. -/
def isTrivia (comment : Bool) : List Cluster → Bool
  | [] => true
  | k :: ks =>
    if k.lead = '\n' then isTrivia false ks
    else if comment || k.first = '#' then isTrivia true ks
    else (k.first = ' ' || k.first = '\t' || k.first = '\r') && isTrivia false ks

variable {ks : List Cluster} {comment : Bool} {c : Char}

theorem isTrivia_comment (h : isTrivia false ks) : isTrivia true ks := by
  induction ks with
  | nil => rfl
  | cons k ks ih =>
    unfold isTrivia at h ⊢
    split
    · next hk => rwa [if_pos hk] at h
    · next hk =>
      rw [if_neg hk] at h
      rw [Bool.true_or, if_pos rfl]
      split at h
      · exact h
      · exact ih (Bool.and_eq_true_iff.mp h).2

theorem isTrivia_append {ls : List Cluster} (hks : isTrivia comment ks)
    (hls : isTrivia false ls) : isTrivia comment (ks ++ ls) := by
  induction ks generalizing comment with
  | nil =>
    cases comment with
    | false => exact hls
    | true => exact isTrivia_comment hls
  | cons k ks ih =>
    rw [cons_append]
    unfold isTrivia at hks ⊢
    split
    · next hk =>
      rw [if_pos hk] at hks
      exact ih hks
    · next hk =>
      rw [if_neg hk] at hks
      split
      · next hcomment =>
        rw [if_pos hcomment] at hks
        exact ih hks
      · next hcomment =>
        rw [if_neg hcomment] at hks
        obtain ⟨hblank, hlater⟩ := Bool.and_eq_true_iff.mp hks
        rw [hblank, ih hlater]
        rfl

theorem isTrivia_gapFrom (bracketed comment : Bool) (ks : List Cluster) :
    isTrivia comment (ks.take (gapFrom bracketed comment ks)) := by
  induction ks generalizing comment with
  | nil => rfl
  | cons k ks ih =>
    unfold gapFrom
    by_cases hk : k.lead = '\n'
    · rw [if_pos hk]
      cases bracketed with
      | false => rfl
      | true =>
        rw [if_pos rfl, Nat.add_comm, take_succ_cons, isTrivia, if_pos hk]
        exact ih false
    · have hfirst := Cluster.lead_eq_first hk
      rw [if_neg hk, hfirst]
      cases comment with
      | true =>
        rw [if_pos rfl, Nat.add_comm, take_succ_cons, isTrivia, if_neg hk, Bool.true_or, if_pos rfl]
        exact ih true
      | false =>
        rw [if_neg Bool.false_ne_true]
        by_cases hblank : (k.first = ' ' || k.first = '\t' || k.first = '\r')
        · have hhash : k.first ≠ '#' := by
            rintro heq
            rw [heq] at hblank
            cases hblank
          rw [if_pos hblank, Nat.add_comm, take_succ_cons, isTrivia, if_neg hk,
            if_neg (by simpa using hhash), hblank]
          exact ih false
        · rw [if_neg hblank]
          by_cases hhash : k.first = '#'
          · rw [if_pos hhash, Nat.add_comm, take_succ_cons, isTrivia, if_neg hk,
              if_pos (by simpa using hhash)]
            exact ih true
          · rw [if_neg hhash]
            rfl

theorem isTrivia_spaces (ks : List Cluster) : isTrivia false (ks.takeWhile (·.lead = ' ')) := by
  induction ks with
  | nil => rfl
  | cons k ks ih =>
    rw [takeWhile_cons]
    split
    · next hk =>
      have hlead : k.lead = ' ' := of_decide_eq_true hk
      have hfirst : k.first = ' ' := by
        rw [← Cluster.lead_eq_first (by rw [hlead]; decide), hlead]
      rw [isTrivia, hlead, hfirst, ih]
      rfl
    · rfl

/-- Trivia that end with the source, or with a line break in front of a line that is not blank. They
are `count` clusters, `read` of them already passed. -/
def BlankRun (read count : Nat) (comment : Bool) (ks : List Cluster) : Prop :=
  ∃ lines rest, ks = lines ++ rest ∧ count = read + lines.length ∧ isTrivia comment lines ∧
    (rest = [] ∨ (blankLines rest = 0 ∧ ∃ init k, lines = init ++ [k] ∧ k.lead = '\n'))

theorem BlankRun.cons {read count : Nat} {comment later : Bool} {k : Cluster} {ks : List Cluster}
    (h : BlankRun (read + 1) count later ks)
    (htrivia : ∀ lines, isTrivia later lines → isTrivia comment (k :: lines)) :
    BlankRun read count comment (k :: ks) := by
  obtain ⟨lines, rest, rfl, hcount, hlines, hrest⟩ := h
  refine ⟨k :: lines, rest, rfl, ?_, htrivia lines hlines, hrest.imp id ?_⟩
  · rw [hcount, length_cons]
    omega
  · rintro ⟨hblank, init, last, rfl, hlast⟩
    exact ⟨hblank, k :: init, last, rfl, hlast⟩

/-- The clusters that `blankLinesFrom` counts, unless the line so far is not blank. -/
theorem blankLinesFrom_cases (read : Nat) (comment : Bool) (ks : List Cluster) :
    blankLinesFrom read comment ks = 0 ∨
      BlankRun read (blankLinesFrom read comment ks) comment ks := by
  induction ks generalizing read comment with
  | nil => exact .inr ⟨[], [], rfl, rfl, rfl, .inl rfl⟩
  | cons k ks ih =>
    -- One more cluster of the line; the line is blank if what follows makes it so.
    have hgoOn : ∀ later,
        blankLinesFrom read comment (k :: ks) = blankLinesFrom (read + 1) later ks →
        (∀ lines, isTrivia later lines → isTrivia comment (k :: lines)) →
        blankLinesFrom read comment (k :: ks) = 0 ∨
          BlankRun read (blankLinesFrom read comment (k :: ks)) comment (k :: ks) := by
      intro later heq htrivia
      rw [heq]
      exact (ih (read + 1) later).imp id (·.cons htrivia)
    by_cases hk : k.lead = '\n'
    · have htrivia : ∀ lines, isTrivia false lines → isTrivia comment (k :: lines) := by
        intro lines hlines
        rwa [isTrivia, if_pos hk]
      rw [blankLinesFrom, if_pos hk]
      rcases ih 0 false with hzero | ⟨lines, rest, hks, hcount, hrun⟩
      · rw [hzero]
        exact .inr ⟨[k], ks, rfl, rfl, htrivia [] rfl, .inr ⟨hzero, [], k, rfl, hk⟩⟩
      · refine .inr (BlankRun.cons ⟨lines, rest, hks, ?_, hrun⟩ htrivia)
        rw [hcount, Nat.zero_add]
    · by_cases hcomment : comment
      · subst hcomment
        refine hgoOn true (by rw [blankLinesFrom, if_neg hk, if_pos rfl]) fun lines hlines => ?_
        rwa [isTrivia, if_neg hk, Bool.true_or, if_pos rfl]
      · have hcomment : comment = false := by simpa using hcomment
        subst hcomment
        by_cases hspace : k = ⟨' ', []⟩
        · refine hgoOn false (by rw [blankLinesFrom, if_neg hk, if_neg Bool.false_ne_true,
            if_pos hspace]) fun lines hlines => ?_
          rw [isTrivia, if_neg hk, hspace, hlines]
          rfl
        · by_cases hhash : k.first = '#'
          · refine hgoOn true (by rw [blankLinesFrom, if_neg hk, if_neg Bool.false_ne_true,
              if_neg hspace, if_pos hhash]) fun lines hlines => ?_
            rwa [isTrivia, if_neg hk, if_pos (by simpa using hhash)]
          · exact .inl (by rw [blankLinesFrom, if_neg hk, if_neg Bool.false_ne_true, if_neg hspace,
              if_neg hhash])

/-- The margin lies in the spaces in front of the line. -/
theorem margin_le (ks : List Cluster) :
    (margin ks).1 ≤ Cluster.bytes (ks.takeWhile (·.lead = ' ')) := by
  induction ks with
  | nil => exact Nat.le_refl 0
  | cons k ks ih =>
    unfold margin
    split
    · next hspace =>
      have hlead : k.lead = ' ' := by
        rw [Cluster.lead_of_first (by rw [hspace]; decide), hspace]
      have hsize := k.size_pos
      rw [takeWhile_cons_of_pos (by simpa using hlead), Cluster.bytes_cons]
      cases k.joined with
      | nil => simp only; omega
      | cons c cs => simp only; omega
    · exact Nat.zero_le _

/-- Blank lines end at the end of the source or in front of a line that is not blank. -/
theorem blankLines_split (ks : List Cluster) :
    ks.drop (blankLines ks) = [] ∨ (blankLines (ks.drop (blankLines ks)) = 0 ∧
      (blankLines ks = 0 ∨ ∃ init last, last.lead = '\n' ∧
        blankLines ks = init.length + 1 ∧
        ks = init ++ last :: ks.drop (blankLines ks))) := by
  rcases blankLinesFrom_cases 0 false ks with hzero | ⟨lines, rest, hks, hcount, -, hrest⟩
  · refine .inr ⟨?_, .inl hzero⟩
    rw [blankLines, hzero]
    exact hzero
  · have hcount : blankLines ks = lines.length := by
      rw [blankLines, hcount, Nat.zero_add]
    have hdrop : ks.drop (blankLines ks) = rest := by rw [hcount, hks, drop_left]
    rw [hdrop]
    rcases hrest with hnil | ⟨hblank, init, last, hlines, hlast⟩
    · exact .inl hnil
    · refine .inr ⟨hblank, .inr ⟨init, last, hlast, by rw [hcount, hlines]; simp, ?_⟩⟩
      rw [hks, hlines, append_assoc]
      rfl

/-- Inside brackets a gap goes over line breaks. -/
theorem lead_after_gap {rest : List Cluster} {k : Cluster}
    (h : ks.drop (gapFrom true comment ks) = k :: rest) : k.lead ≠ '\n' := by
  induction ks generalizing comment with
  | nil => simp at h
  | cons j ks ih =>
    rw [gapFrom] at h
    by_cases hj : j.lead = '\n'
    · rw [if_pos hj, if_pos rfl, Nat.add_comm, drop_succ_cons] at h
      exact ih h
    · rw [if_neg hj] at h
      have hhere : (j :: ks).drop 0 = k :: rest → k.lead ≠ '\n' := by
        intro heq
        rw [← (cons.inj heq).1]
        exact hj
      have hcomment := @ih true
      have hblank := @ih false
      split at h
      · rw [Nat.add_comm, drop_succ_cons] at h
        exact hcomment h
      · split at h
        · rw [Nat.add_comm, drop_succ_cons] at h
          exact hblank h
        · split at h
          · rw [Nat.add_comm, drop_succ_cons] at h
            exact hcomment h
          · exact hhere h

theorem operator_start {next : Option Char} {sign : TokenKind × Nat}
    (h : operator c next = some sign) : isLetter c = false ∧ isDigit c = false := by
  unfold operator at h
  dsimp only at h
  split at h <;> first | exact ⟨rfl, rfl⟩ | cases h

theorem isStyleWordStart_of_isLetter (h : isLetter c) : isStyleWordStart c := by
  rw [isStyleWordStart, h]
  rfl

theorem isStyleWordStart_of_isDigit (h : isDigit c) : isStyleWordStart c := by
  rw [isStyleWordStart, h, Bool.or_true]
  rfl

/-- A number goes on after a digit. -/
theorem number_cons {k : Cluster} (h : isDigit k.lead) (ks : List Cluster) :
    number (k :: ks) = number ks + 1 := by
  rw [number, h, Bool.true_or, Bool.true_or, if_pos rfl, Nat.add_comm]

end Lexeme

namespace Lexer

open Lexeme (margin isStyleWordStart operator gap blankLines)

/-- The kinds of the tokens that tell where lines and levels end. -/
def isLayout (kind : TokenKind) : Bool := [TokenKind.newline, .indent, .dedent, .eof].contains kind

/-- The scanner after the gap in front of it. -/
def pastGap (l : Lexer) : Lexer :=
  { l with cursor := l.cursor.skip (gap (!l.brackets.isEmpty) l.cursor.rest) }

/-- The scanner after the blank lines in front of it. -/
def pastBlank (l : Lexer) : Lexer :=
  { l with cursor := l.cursor.skip (blankLines l.cursor.rest) }

/-- The scanner after the spaces at the start of a line. -/
def pastMargin (l : Lexer) : Lexer := { l with cursor := l.cursor.skipSpaces }

/-! ## At a cluster -/

/-- What is taken at a cluster that is no line break. -/
inductive Takes (l : Lexer) (k : Cluster) (rest : List Cluster) : Scanned → Prop where
  | string {length : Nat} (hquote : k.lead = '"' ∨ k.lead = '\'')
      (hrest : Lexeme.stringRest k.lead rest = some length) :
      Takes l k rest (.ok (l.take .string (length + 1)))
  | unterminated (hquote : k.lead = '"' ∨ k.lead = '\'')
      (hrest : Lexeme.stringRest k.lead rest = none) :
      Takes l k rest (l.fail .unterminatedString (rest.length + 1))
  | opening {b : Bracket} (hb : Bracket.ofOpening? k.lead = some b) :
      Takes l k rest (.ok (l.openBracket b))
  | closing {b : Bracket} {outer : List Bracket} (hb : Bracket.ofClosing? k.lead = some b)
      (hbrackets : l.brackets = b :: outer) :
      Takes l k rest (.ok (l.token (.closing b) b.closing.toString,
        { l with cursor := l.cursor.step, brackets := outer }))
  | unmatched {b : Bracket} (hb : Bracket.ofClosing? k.lead = some b)
      (hbrackets : l.brackets.head? ≠ some b) :
      Takes l k rest (l.fail (.unmatchedClosing b.closing) 1)
  | styleWord (hstart : isStyleWordStart k.lead = true)
      (hmode : l.headingMode k.lead = .style) :
      Takes l k rest (.ok (l.take .styleWord (Lexeme.run Lexeme.isStyleWordPart l.cursor.rest)))
  | word (hletter : isLetter k.lead = true) (hmode : l.headingMode k.lead = .plain) :
      Takes l k rest (.ok (word { l with mode := .plain }))
  | number (hdigit : isDigit k.lead = true) (hmode : l.mode = .plain) :
      Takes l k rest (.ok (l.take .number (Lexeme.number l.cursor.rest)))
  | sign {kind : TokenKind} {length : Nat}
      (hmode : isStyleWordStart k.lead = true → l.mode = .plain)
      (hsign : operator k.lead (rest.head?.map (·.first)) = some (kind, length)) :
      Takes l k rest (.ok (l.take kind length))
  | unexpected (hquote : ¬(k.lead = '"' ∨ k.lead = '\''))
      (hopening : Bracket.ofOpening? k.lead = none) (hclosing : Bracket.ofClosing? k.lead = none)
      (hstart : isStyleWordStart k.lead = false)
      (hsign : operator k.lead (rest.head?.map (·.first)) = none) :
      Takes l k rest (l.fail (.unexpectedCharacter k.lead))

variable {l m : Lexer} {k : Cluster} {rest : List Cluster} {result : Scanned}

theorem headingMode_of_not_isLetter (h : isLetter k.lead = false) :
    l.headingMode k.lead = l.mode := by
  rw [headingMode, h, Bool.and_false, if_neg Bool.false_ne_true]

theorem headingMode_of_plain {c : Char} (h : l.mode = .plain) : l.headingMode c = .plain := by
  rw [headingMode, h]
  exact ite_self _

theorem headingMode_eq (h : l.headingMode k.lead = .style) : l.mode = .style := by
  unfold headingMode at h
  split at h
  · cases h
  · exact h

theorem takes_closeBracket {b : Bracket} (hb : Bracket.ofClosing? k.lead = some b) :
    l.Takes k rest (l.closeBracket b) := by
  unfold closeBracket
  split
  · next top outer hbrackets =>
    split
    · next htop => exact .closing hb (htop ▸ hbrackets)
    · next htop => exact .unmatched hb (by rw [hbrackets]; simpa using htop)
  · next hbrackets => exact .unmatched hb (by rw [hbrackets]; simp)

theorem takes_bare (hquote : ¬(k.lead = '"' ∨ k.lead = '\''))
    (hopening : Bracket.ofOpening? k.lead = none) (hclosing : Bracket.ofClosing? k.lead = none) :
    l.Takes k rest (l.bare k rest) := by
  unfold bare
  extract_lets inside
  have hplain : inside.mode ≠ .style → inside.mode = .plain := by
    cases inside.mode with
    | plain => exact fun _ => rfl
    | style => exact fun h => absurd rfl h
  by_cases hstyle : (inside.mode = .style && isStyleWordStart k.lead)
  · rw [if_pos hstyle]
    obtain ⟨hmode, hstart⟩ := Bool.and_eq_true_iff.mp hstyle
    have hmode : l.headingMode k.lead = .style := of_decide_eq_true hmode
    have hsame : inside = l := by
      simp only [inside, hmode]
      rw [← headingMode_eq hmode]
    rw [hsame]
    exact .styleWord hstart hmode
  rw [if_neg hstyle]
  have hstart : isStyleWordStart k.lead → inside.mode = .plain := by
    intro hstart
    exact hplain fun hmode => hstyle (by rw [hstart, hmode]; rfl)
  by_cases hletter : isLetter k.lead
  · rw [if_pos hletter]
    have hmode : l.headingMode k.lead = .plain :=
      hstart (by rw [isStyleWordStart, hletter]; rfl)
    simp only [inside, hmode]
    exact .word hletter hmode
  rw [if_neg hletter]
  have hletter : isLetter k.lead = false := by simpa using hletter
  have hsame : inside = l := by simp only [inside, headingMode_of_not_isLetter hletter]
  rw [hsame] at hstart ⊢
  by_cases hdigit : isDigit k.lead
  · rw [if_pos hdigit]
    exact .number hdigit (hstart (by rw [isStyleWordStart, hdigit, Bool.or_true]; rfl))
  rw [if_neg hdigit]
  split
  · next kind length hsign => exact .sign hstart hsign
  · next hsign =>
    refine .unexpected hquote hopening hclosing ?_ hsign
    have hdash : k.lead ≠ '-' := by
      intro hdash
      rw [hdash, operator] at hsign
      dsimp only at hsign
      split at hsign <;> cases hsign
    simp [isStyleWordStart, hletter, hdigit, hdash]

/-! ## After a gap -/

/-- What is given after a gap. -/
inductive Gives (l : Lexer) : Scanned → Prop where
  | lastLine (hrest : l.cursor.rest = []) (hbrackets : l.brackets = [])
      (hlast : isLayout l.last = false) : Gives l (.ok (l.token .newline "", l))
  | lastLevel {level outer : Nat} {levels : List Nat} (hrest : l.cursor.rest = [])
      (hlast : l.brackets = [] → isLayout l.last = true)
      (hindents : l.indents = level :: outer :: levels) :
      Gives l (.ok (l.token .dedent "", { l with indents := outer :: levels }))
  | eof (hrest : l.cursor.rest = []) (hlast : l.brackets = [] → isLayout l.last = true)
      (hindents : l.indents.length ≤ 1) : Gives l (.ok (l.token .eof "", l))
  | newline {k : Cluster} {rest : List Cluster} (hrest : l.cursor.rest = k :: rest)
      (hk : k.lead = '\n') (hbrackets : l.brackets = []) : Gives l (.ok (l.take .newline 1))
  | cluster {k : Cluster} {rest : List Cluster} {result : Scanned}
      (hrest : l.cursor.rest = k :: rest) (hk : k.lead ≠ '\n') (htakes : l.Takes k rest result) :
      Gives l result

theorem finish_gives (hrest : l.cursor.rest = []) : l.Gives (.ok l.finish) := by
  unfold finish
  extract_lets layout
  have hlayout : layout = isLayout l.last := rfl
  by_cases hline : (l.brackets.isEmpty && !layout)
  · rw [if_pos hline]
    rw [hlayout] at hline
    obtain ⟨hbrackets, hlast⟩ := Bool.and_eq_true_iff.mp hline
    exact .lastLine hrest (isEmpty_iff.mp hbrackets) (by simpa using hlast)
  rw [if_neg hline]
  have hlast : l.brackets = [] → isLayout l.last := by
    intro hbrackets
    rw [hbrackets, hlayout] at hline
    simpa using hline
  split
  · next level outer levels hindents => exact .lastLevel hrest hlast hindents
  · next hnone =>
    refine .eof hrest hlast ?_
    rcases hindents : l.indents with _ | ⟨level, _ | ⟨outer, levels⟩⟩
    · simp
    · simp
    · exact absurd hindents (hnone level outer levels)

theorem rest_pastGap (l : Lexer) : l.pastGap.cursor.rest =
    l.cursor.rest.drop (gap (!l.brackets.isEmpty) l.cursor.rest) := Cursor.rest_skip _ _

theorem pastGap_of_zero (h : gap (!l.brackets.isEmpty) l.cursor.rest = 0) :
    l.pastGap = l := by
  rw [pastGap, h]
  rfl

theorem pastGap_of_empty (h : l.cursor.rest = []) : l.pastGap = l :=
  pastGap_of_zero (by rw [h]; rfl)

theorem content_gives (l : Lexer) : l.pastGap.Gives l.content := by
  unfold content
  extract_lets inside
  change inside.Gives _
  split
  · next hrest => exact finish_gives hrest
  next k rest hrest =>
  by_cases hline : k.lead = '\n'
  · rw [if_pos hline]
    refine .newline hrest hline ?_
    -- Inside brackets the gap would have gone on.
    change l.brackets = []
    by_contra hne
    have hgap := rest_pastGap l
    rw [isEmpty_eq_false_iff.mpr hne] at hgap
    exact Lexeme.lead_after_gap (hgap.symm.trans hrest) hline
  rw [if_neg hline]
  refine .cluster hrest hline ?_
  by_cases hquote : (k.lead = '"' || k.lead = '\'')
  · rw [if_pos hquote, quoted]
    have hquote : k.lead = '"' ∨ k.lead = '\'' := by simpa using hquote
    split
    · next length hlength => exact .string hquote hlength
    · next hnone => exact .unterminated hquote hnone
  rw [if_neg hquote]
  split
  · next hb => exact .opening hb
  · next hb => exact takes_closeBracket hb
  · next hopening hclosing => exact takes_bare (by simpa using hquote) hopening hclosing

theorem content_of_cluster (hrest : l.pastGap.cursor.rest = k :: rest) (hk : k.lead ≠ '\n') :
    l.content = if k.lead = '"' || k.lead = '\'' then l.pastGap.quoted k.lead rest
      else (Bracket.ofOpening? k.lead).elim
        ((Bracket.ofClosing? k.lead).elim (l.pastGap.bare k rest) l.pastGap.closeBracket)
        fun b => .ok (l.pastGap.openBracket b) := by
  unfold content
  extract_lets inside
  change inside.cursor.rest = k :: rest at hrest
  rw [hrest]
  dsimp only
  rw [if_neg hk]
  cases Bracket.ofOpening? k.lead with
  | some b => rfl
  | none => cases Bracket.ofClosing? k.lead <;> rfl

/-- No word, number or sign starts with a quote, a bracket or a line break. -/
theorem content_of_start {next : Option Char} (hrest : l.pastGap.cursor.rest = k :: rest)
    (hk : isStyleWordStart k.lead ∨ operator k.lead next ≠ none) :
    l.content = l.pastGap.bare k rest := by
  have hne : ∀ c, isStyleWordStart c = false → operator c next = none → k.lead ≠ c := by
    rintro c hstart hsign rfl
    rw [hstart, hsign] at hk
    simp at hk
  have hopening : Bracket.ofOpening? k.lead = none := by
    refine List.find?_eq_none.mpr fun b _ => ?_
    have hb := hne b.opening (by cases b <;> rfl) (by cases b <;> rfl)
    simpa using hb.symm
  have hclosing : Bracket.ofClosing? k.lead = none := by
    refine List.find?_eq_none.mpr fun b _ => ?_
    have hb := hne b.closing (by cases b <;> rfl) (by cases b <;> rfl)
    simpa using hb.symm
  have hquote : ¬(k.lead = '"' || k.lead = '\'') := by
    have hdouble := hne '"' rfl rfl
    have hsingle := hne '\'' rfl rfl
    simp [hdouble, hsingle]
  rw [content_of_cluster hrest (hne '\n' rfl rfl), if_neg hquote, hopening, hclosing,
    Option.elim_none, Option.elim_none]

/-- Only a letter can be a heading. -/
theorem bare_of_not_isLetter (hletter : isLetter k.lead = false) :
    l.bare k rest = if l.mode = .style && isStyleWordStart k.lead then
        .ok (l.take .styleWord (Lexeme.run Lexeme.isStyleWordPart l.cursor.rest))
      else if isDigit k.lead then .ok (l.take .number (Lexeme.number l.cursor.rest))
      else (operator k.lead (rest.head?.map (·.first))).elim
        (l.fail (.unexpectedCharacter k.lead)) fun sign => .ok (l.take sign.1 sign.2) := by
  have hsame : { l with mode := l.headingMode k.lead } = l := by
    rw [headingMode_of_not_isLetter hletter]
  rw [bare, hsame, hletter]
  cases operator k.lead (rest.head?.map (·.first)) <;> rfl

/-- What is taken is what comes of the scan. -/
theorem Takes.content_eq (hrest : l.pastGap.cursor.rest = k :: rest) (hk : k.lead ≠ '\n')
    (h : l.pastGap.Takes k rest result) : l.content = result := by
  have hcontent := content_of_cluster hrest hk
  cases h with
  | string hquote hlength =>
    rw [hcontent, if_pos (by simpa using hquote), quoted, hlength]
  | unterminated hquote hnone =>
    rw [hcontent, if_pos (by simpa using hquote), quoted, hnone]
  | @opening b hb =>
    have hopening : b.opening = k.lead := by simpa using List.find?_some hb
    rw [hcontent, if_neg (by rw [← hopening]; cases b <;> decide), hb, Option.elim_some]
  | @closing b outer hb hbrackets =>
    have hclosing : b.closing = k.lead := by simpa using List.find?_some hb
    rw [hcontent, if_neg (by rw [← hclosing]; cases b <;> decide),
      Bracket.ofOpening?_of_closing hb, hb, Option.elim_none,
      Option.elim_some]
    simp only [closeBracket, hbrackets, if_true]
  | @unmatched b hb hbrackets =>
    have hclosing : b.closing = k.lead := by simpa using List.find?_some hb
    rw [hcontent, if_neg (by rw [← hclosing]; cases b <;> decide),
      Bracket.ofOpening?_of_closing hb, hb, Option.elim_none,
      Option.elim_some, closeBracket]
    split
    · next top outer heq =>
      rw [if_neg]
      rintro rfl
      exact hbrackets (by rw [heq]; rfl)
    · rfl
  | styleWord hstart hmode =>
    have hsame : { l.pastGap with mode := l.pastGap.headingMode k.lead } = l.pastGap := by
      rw [hmode, ← headingMode_eq hmode]
    rw [@content_of_start l k rest none hrest (.inl hstart), bare, hsame, headingMode_eq hmode, hstart]
    rfl
  | word hletter hmode =>
    rw [@content_of_start l k rest none hrest (.inl (Lexeme.isStyleWordStart_of_isLetter hletter)),
      bare, hmode, hletter]
    rfl
  | number hdigit hmode =>
    rw [@content_of_start l k rest none hrest (.inl (Lexeme.isStyleWordStart_of_isDigit hdigit)),
      bare_of_not_isLetter (not_isLetter_of_isDigit hdigit), hmode, hdigit]
    rfl
  | sign hmode hsign =>
    obtain ⟨hletter, hdigit⟩ := Lexeme.operator_start hsign
    have hstyle : (l.pastGap.mode = .style && isStyleWordStart k.lead) = false := by
      cases hstart : isStyleWordStart k.lead with
      | false => exact Bool.and_false _
      | true => rw [hmode hstart]; rfl
    rw [content_of_start hrest (.inr (by rw [hsign]; simp)), bare_of_not_isLetter hletter, hstyle,
      hdigit, hsign]
    rfl
  | unexpected hquote hopening hclosing hstart hsign =>
    obtain ⟨hword, -⟩ := Bool.or_eq_false_iff.mp hstart
    obtain ⟨hletter, hdigit⟩ := Bool.or_eq_false_iff.mp hword
    rw [hcontent, if_neg (by simpa using hquote), hopening, hclosing, Option.elim_none,
      Option.elim_none, bare_of_not_isLetter hletter, hstart, hdigit, hsign, Bool.and_false]
    rfl

theorem content_of_end (h : l.pastGap.cursor.rest = []) : l.content = .ok l.pastGap.finish := by
  unfold content
  extract_lets inside
  change inside.cursor.rest = [] at h
  change _ = Except.ok inside.finish
  rw [h]

theorem content_of_empty (h : l.cursor.rest = []) : l.content = .ok l.finish := by
  have hpast := pastGap_of_empty h
  rw [content_of_end (by rwa [hpast]), hpast]

theorem finish_of_isLayout (h : l.brackets = [] → isLayout l.last) :
    l.finish = if 1 < l.indents.length then (l.token .dedent "", { l with indents := l.indents.tail })
      else (l.token .eof "", l) := by
  have hline : ¬(l.brackets.isEmpty && !isLayout l.last) := by
    intro hline
    obtain ⟨hbrackets, hlast⟩ := Bool.and_eq_true_iff.mp hline
    rw [h (List.isEmpty_iff.mp hbrackets)] at hlast
    cases hlast
  refine (if_neg hline).trans ?_
  rcases l.indents with _ | ⟨level, _ | ⟨outer, levels⟩⟩ <;> simp

theorem Gives.content_eq (h : l.pastGap.Gives result) : l.content = result := by
  cases h with
  | lastLine hrest hbrackets hlast =>
    have hline : (l.pastGap.brackets.isEmpty && !isLayout l.pastGap.last) := by
      rw [hbrackets, hlast]
      rfl
    rw [content_of_end hrest]
    exact congrArg Except.ok (if_pos hline)
  | lastLevel hrest hlast hindents =>
    rw [content_of_end hrest, finish_of_isLayout hlast, hindents, if_pos (by simp)]
    rfl
  | eof hrest hlast hindents =>
    rw [content_of_end hrest, finish_of_isLayout hlast, if_neg (Nat.not_lt.mpr hindents)]
  | newline hrest hk =>
    unfold content
    extract_lets inside
    change inside.cursor.rest = _ :: _ at hrest
    rw [hrest]
    exact if_pos hk
  | cluster hrest hk htakes => exact htakes.content_eq hrest hk

/-- In front of a line break there is no gap. -/
theorem content_of_newline (hrest : l.cursor.rest = k :: rest) (hk : k.lead = '\n')
    (hbrackets : l.brackets = []) : l.content = .ok (l.take .newline 1) := by
  have hgap : l.pastGap = l := pastGap_of_zero (by
    rw [hrest, hbrackets]
    simp [gap, Lexeme.gapFrom, hk])
  refine Gives.content_eq ?_
  rw [hgap]
  exact .newline hrest hk hbrackets

/-! ## The start of a line -/

/-- What the margin of a line comes to, unless it is the one of the innermost level. -/
inductive Lays (l : Lexer) : Scanned → Prop where
  | tab (htab : (margin l.cursor.rest).2 = some '\t') :
      Lays l (l.pastMargin.fail .tabIndentation)
  | indent (htab : (margin l.cursor.rest).2 ≠ some '\t')
      (hwidth : l.indents.headD 0 < (margin l.cursor.rest).1) :
      Lays l (.ok (l.pastMargin.token .indent "",
        { l.pastMargin with indents := (margin l.cursor.rest).1 :: l.indents }))
  | uneven (htab : (margin l.cursor.rest).2 ≠ some '\t')
      (hwidth : (margin l.cursor.rest).1 < l.indents.headD 0)
      (houter : l.indents.tail.headD 0 < (margin l.cursor.rest).1) :
      Lays l (fail { l.pastMargin with indents := l.indents.tail }
        (.inconsistentDedent (margin l.cursor.rest).1))
  | dedent (htab : (margin l.cursor.rest).2 ≠ some '\t')
      (hwidth : (margin l.cursor.rest).1 < l.indents.headD 0)
      (houter : l.indents.tail.headD 0 = (margin l.cursor.rest).1) :
      Lays l (.ok (l.pastMargin.token .dedent "",
        { l.pastMargin with indents := l.indents.tail }))
  | pending (htab : (margin l.cursor.rest).2 ≠ some '\t')
      (hwidth : (margin l.cursor.rest).1 < l.indents.headD 0)
      (houter : (margin l.cursor.rest).1 < l.indents.tail.headD 0) :
      Lays l (.ok (⟨.dedent, "", l.cursor.line, (margin l.cursor.rest).1 + 1,
        l.cursor.offset + (margin l.cursor.rest).1⟩, { l with indents := l.indents.tail }))

/-- Either the line goes on at the innermost level or its margin gives a token or a fault. -/
theorem layout_cases (l : Lexer) :
    ((margin l.cursor.rest).2 ≠ some '\t' ∧
      (margin l.cursor.rest).1 = l.indents.headD 0 ∧ l.layout = l.pastMargin.content) ∨
      l.Lays l.layout := by
  have hlays := @Lays.tab l
  have hindent := @Lays.indent l
  have huneven := @Lays.uneven l
  have hdedent := @Lays.dedent l
  have hpending := @Lays.pending l
  unfold layout
  generalize margin l.cursor.rest = margin at *
  obtain ⟨width, next⟩ := margin
  dsimp only at *
  by_cases htab : next = some '\t'
  · rw [if_pos htab]
    exact .inr (hlays htab)
  rw [if_neg htab]
  by_cases hsame : width = l.indents.headD 0
  · rw [if_pos hsame]
    exact .inl ⟨htab, hsame, rfl⟩
  rw [if_neg hsame]
  right
  by_cases hdeeper : l.indents.headD 0 < width
  · rw [if_pos hdeeper]
    exact hindent htab hdeeper
  rw [if_neg hdeeper]
  have hlower : width < l.indents.headD 0 := by omega
  by_cases houter : l.indents.tail.headD 0 < width
  · rw [if_pos houter]
    exact huneven htab hlower houter
  rw [if_neg houter]
  by_cases hlast : l.indents.tail.headD 0 = width
  · rw [if_pos hlast]
    exact hdedent htab hlower hlast
  · rw [if_neg hlast]
    exact hpending htab hlower (by omega)

theorem layout_of_margin (htab : (margin l.cursor.rest).2 ≠ some '\t')
    (hwidth : (margin l.cursor.rest).1 = l.indents.headD 0) :
    l.layout = l.pastMargin.content := by
  rw [layout]
  dsimp only
  rw [if_neg htab, if_pos hwidth]
  rfl

theorem Lays.layout_eq (h : l.Lays result) : l.layout = result := by
  rw [layout]
  dsimp only
  cases h with
  | tab htab => exact if_pos htab
  | indent htab hwidth =>
    rw [if_neg htab, if_neg (by omega), if_pos hwidth]
    rfl
  | uneven htab hwidth houter =>
    rw [if_neg htab, if_neg (by omega), if_neg (by omega), if_pos houter]
    rfl
  | dedent htab hwidth houter =>
    rw [if_neg htab, if_neg (by omega), if_neg (by omega), if_neg (by omega), if_pos houter]
    rfl
  | pending htab hwidth houter =>
    rw [if_neg htab, if_neg (by omega), if_neg (by omega), if_neg (by omega), if_neg (by omega)]

theorem rest_pastBlank (l : Lexer) :
    l.pastBlank.cursor.rest = l.cursor.rest.drop (blankLines l.cursor.rest) :=
  Cursor.rest_skip _ _

theorem column_pastBlank (hcolumn : l.cursor.column = 1) :
    l.pastBlank.cursor.rest = [] ∨ l.pastBlank.cursor.column = 1 := by
  rw [rest_pastBlank]
  rcases Lexeme.blankLines_split l.cursor.rest with
    hnil | ⟨-, hzero | ⟨init, last, hlast, hcount, hrest⟩⟩
  · exact .inl hnil
  · refine .inr ?_
    rw [pastBlank, hzero]
    exact hcolumn
  · refine .inr ?_
    rw [pastBlank, hcount]
    exact Cursor.column_skip hlast l.cursor hrest

theorem blankLines_pastBlank (l : Lexer) : blankLines l.pastBlank.cursor.rest = 0 := by
  rw [rest_pastBlank]
  rcases Lexeme.blankLines_split l.cursor.rest with hempty | ⟨hblank, -⟩
  · rw [hempty]
    rfl
  · exact hblank

theorem pastBlank_of_zero (h : blankLines l.cursor.rest = 0) : l.pastBlank = l := by
  rw [pastBlank, h]
  rfl

/-- The scanner in front of a line with something on it, after any number of blank lines. -/
structure StartsLine (l : Lexer) : Prop where
  column : l.cursor.column = 1
  brackets : l.brackets = []
  rest : l.pastBlank.cursor.rest ≠ []

theorem StartsLine.column_pastBlank (h : l.StartsLine) : l.pastBlank.cursor.column = 1 :=
  (Lexer.column_pastBlank h.column).resolve_left h.rest

/-! ## Anywhere -/

/-- The scanner in front of a token, if no line starts before it or the line that starts is one of
the innermost level. -/
inductive Comes (l : Lexer) : Lexer → Prop where
  | inside (hinside : ¬(l.cursor.column = 1 ∧ l.brackets = [])) : Comes l l.pastGap
  | ending (hcolumn : l.cursor.column = 1) (hbrackets : l.brackets = [])
      (hrest : l.pastBlank.cursor.rest = []) : Comes l l.pastBlank
  | line (hstart : l.StartsLine)
      (htab : (margin l.pastBlank.cursor.rest).2 ≠ some '\t')
      (hwidth : (margin l.pastBlank.cursor.rest).1 = l.indents.headD 0) :
      Comes l l.pastBlank.pastMargin.pastGap

/-- What a scan comes to. -/
inductive Branches (l : Lexer) : Scanned → Prop where
  | gives {m : Lexer} {result : Scanned} (hcomes : l.Comes m) (hgives : m.Gives result) :
      Branches l result
  | lays {result : Scanned} (hstart : l.StartsLine) (hlays : l.pastBlank.Lays result) :
      Branches l result

theorem Comes.exists_skip (h : l.Comes m) : ∃ n, m = { l with cursor := l.cursor.skip n } := by
  cases h with
  | inside => exact ⟨_, rfl⟩
  | ending => exact ⟨_, rfl⟩
  | line =>
    obtain ⟨n, hn⟩ : ∃ n, l.pastBlank.cursor.skipSpaces = l.cursor.skip n :=
      ⟨_, (Cursor.skip_add _ _ _).symm⟩
    refine ⟨n + gap (!l.brackets.isEmpty) l.pastBlank.cursor.skipSpaces.rest, ?_⟩
    rw [Cursor.skip_add, ← hn]
    rfl

theorem scan_of_lineStart (hcolumn : l.cursor.column = 1) (hbrackets : l.brackets = []) :
    l.scan = l.lineStart := by
  rw [scan, hcolumn, hbrackets]
  rfl

theorem scan_of_inside (h : ¬(l.cursor.column = 1 ∧ l.brackets = [])) : l.scan = l.content :=
  if_neg (by simpa using h)

theorem lineStart_eq (l : Lexer) :
    l.lineStart = if l.pastBlank.cursor.rest.isEmpty then l.pastBlank.content
      else l.pastBlank.layout := rfl

theorem scan_of_empty (h : l.cursor.rest = []) : l.scan = .ok l.finish := by
  have hblank : l.pastBlank = l := by rw [pastBlank, Cursor.skip_of_empty h]
  unfold scan
  rw [lineStart_eq, hblank, h]
  split <;> exact content_of_empty h

theorem StartsLine.scan_eq (h : l.StartsLine) : l.scan = l.pastBlank.layout := by
  rw [scan_of_lineStart h.column h.brackets, lineStart_eq,
    if_neg (by rw [List.isEmpty_iff]; exact h.rest)]

theorem scan_branches (l : Lexer) : l.Branches l.scan := by
  by_cases hinside : l.cursor.column = 1 ∧ l.brackets = []
  · obtain ⟨hcolumn, hbrackets⟩ := hinside
    by_cases hrest : l.pastBlank.cursor.rest = []
    · refine .gives (.ending hcolumn hbrackets hrest) ?_
      rw [scan_of_lineStart hcolumn hbrackets, lineStart_eq, hrest]
      have hgives := content_gives l.pastBlank
      rwa [pastGap_of_empty hrest] at hgives
    · have hstart : l.StartsLine := ⟨hcolumn, hbrackets, hrest⟩
      rw [hstart.scan_eq]
      rcases layout_cases l.pastBlank with ⟨htab, hwidth, heq⟩ | hlays
      · rw [heq]
        exact .gives (.line hstart htab hwidth) (content_gives _)
      · exact .lays hstart hlays
  · rw [scan_of_inside hinside]
    exact .gives (.inside hinside) (content_gives l)

theorem Branches.scan_eq (h : l.Branches result) : l.scan = result := by
  cases h with
  | gives hcomes hgives =>
    cases hcomes with
    | inside hinside =>
      rw [scan_of_inside hinside]
      exact hgives.content_eq
    | ending hcolumn hbrackets hrest =>
      rw [scan_of_lineStart hcolumn hbrackets, lineStart_eq, hrest]
      rw [← pastGap_of_empty hrest] at hgives
      exact hgives.content_eq
    | line hstart htab hwidth =>
      rw [hstart.scan_eq, layout_of_margin htab hwidth]
      exact hgives.content_eq
  | lays hstart hlays =>
    rw [hstart.scan_eq]
    exact hlays.layout_eq

end Lexer
end Stencil
