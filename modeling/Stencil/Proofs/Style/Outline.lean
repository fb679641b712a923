import Stencil.Proofs.Style.Scanning

/-!
# Outlines of style blocks

A style block is an outline whose heading starts with the word `css`. Below the heading every line
has a margin, and the lines are scanned into their tokens between the ends of levels.
-/
namespace Stencil

open Text (Cluster isApart)
open Text.Cluster (ofChars ofChars_append takeWhile_ofChars)
open Written (line)
open List Written

/-- A line of a style block that starts with a token. -/
def IsFlowing (words : List Written) : Prop :=
  Flows [] words ∧ isSolid (Written.first words) = true

namespace Outline

/-- Every line is one of a style block and starts with a token. -/
abbrev Flowing : Outline → Prop := Every IsFlowing

abbrev AllFlowing : List Outline → Prop := EveryAll IsFlowing

end Outline

/-- Lines of a style block stand below its heading, with a margin. -/
theorem scansLines_style : ScansLines .style 1 IsFlowing where
  first h := exists_front h.2
  line {words} h {l levels rest} hlow hl := by
    have hcolumn : 2 ≤ l.cursor.column := hl.start.resolve_right fun hstart => by omega
    obtain ⟨front, newline, m, htrace, hfront, hnewline, hfresh⟩ :=
      h.1.endsLine ⟨hl.rest, hl.brackets, hl.indents, hl.mode, hl.fault, hcolumn⟩
    exact ⟨front, newline, m, htrace, ⟨_, hfront⟩, hnewline, hfresh⟩

/-! ## The heading -/

namespace Lexer

variable {l : Lexer} {cs : List Char}

/-- The word `css` at the start of a line without a margin is a heading. -/
theorem scan_css (hrest : l.cursor.rest = ofChars ("css".toList ++ cs))
    (hcs : ∀ c ∈ cs.head?, isApart c) (hnext : ∀ c ∈ cs.head?, Lexeme.isNamePart c = false)
    (hcolumn : l.cursor.column = 1) (hindents : l.indents = [0]) :
    l.scan = .ok (Lexer.take { l with mode := .style } (.keyword .css) 3) := by
  have hfront : l.cursor.rest = [⟨'c', []⟩, ⟨'s', []⟩, ⟨'s', []⟩] ++ ofChars cs := by
    rw [hrest, ofChars_append (by decide) hcs]
    rfl
  have hrun : Lexeme.run Lexeme.isNamePart l.cursor.rest = 3 := by
    rw [hfront, Lexeme.run, takeWhile_append_of_pos (by decide), takeWhile_ofChars hcs hnext]
    rfl
  have hword : Lexer.word { l with mode := .plain } =
      Lexer.take { l with mode := .style } (.keyword .css) 3 := by
    have htext : Cluster.text (l.cursor.rest.take 3) = "css" := by
      rw [hfront]
      rfl
    have hkind : TokenKind.ofWord "css" = .keyword .css := by decide
    rw [Lexer.word]
    dsimp only
    rw [hrun, htext, hkind, hcolumn]
    rfl
  have hmode : l.headingMode (⟨'c', []⟩ : Cluster).lead = .plain := by
    rw [headingMode, hcolumn]
    rfl
  rw [scan_of_front hfront rfl (.inr ⟨hcolumn, by rw [hindents]; rfl⟩),
    (Takes.word rfl hmode).content_of_front hfront rfl, hword]

/-- After the heading style words are scanned. -/
theorem endsLine_css (file : String) {ws : List Written} {rest : List Char} (h : Flows [] ws)
    (hnext : Lexeme.isNamePart (first ws) = false) :
    ∃ front newline m,
      (start file (String.ofList ("css".toList ++ (line ws ++ '\n' :: rest)))).Trace
        (front ++ [newline]) m ∧ Stands front (Written.word .css :: ws) ∧
      newline.kind = .newline ∧ m.Fresh .style [0] (ofChars rest) := by
  generalize hl : start file _ = l
  have hrest : l.cursor.rest = ofChars ("css".toList ++ (line ws ++ '\n' :: rest)) := by
    rw [← hl]
    exact congrArg ofChars String.toList_ofList
  have hname : ∀ c ∈ (line ws ++ '\n' :: rest).head?, Lexeme.isNamePart c = false := by
    rw [Flows.head?_line]
    rintro c ⟨⟩
    exact hnext
  have hscan := scan_css hrest (h.apart rest) hname (by rw [← hl]; rfl) (by rw [← hl]; rfl)
  have hfront : l.cursor.rest = [⟨'c', []⟩, ⟨'s', []⟩] ++ ⟨'s', []⟩ ::
      ofChars (line ws ++ '\n' :: rest) := by
    rw [hrest, ofChars_append (by decide) (h.apart rest)]
    rfl
  have htaken : l.cursor.rest.take 3 = [⟨'c', []⟩, ⟨'s', []⟩, ⟨'s', []⟩] := by
    rw [hfront]
    rfl
  have hcolumn : 2 ≤ (l.cursor.skip 3).column :=
    Cursor.two_le_column_skip (by decide) (by rw [← hl]; exact Nat.le_refl 1) hfront
  have hoffset : (l.cursor.skip 3).offset = l.cursor.offset + 3 := by
    rw [Cursor.offset_skip, htaken]
    rfl
  have hstyled : Styled { l with cursor := l.cursor.skip 3, mode := .style, last := .keyword .css }
      [0] [] (line ws ++ '\n' :: rest) := by
    refine ⟨?_, by rw [← hl]; rfl, by rw [← hl]; rfl, rfl, by rw [← hl]; rfl, hcolumn⟩
    rw [Cursor.rest_skip, hfront]
    rfl
  obtain ⟨ts, newline, n, htrace, hts, hnewline, hfresh⟩ := h.endsLine hstyled
  rw [take, htaken] at hscan
  refine ⟨_ :: ts, newline, n, .step (by rw [← hl]; rfl) hscan TokenKind.noConfusion htrace,
    ⟨l.cursor.offset, ?_⟩, hnewline, hfresh⟩
  rw [map_cons, hts]
  exact congrArg (_ :: stamps · ws) hoffset

end Lexer

/-! ## Scanning outlines -/

namespace Outline

open Lexer

/-- The text of a style block is scanned into the tokens of its outline. -/
theorem scan_style {ws : List Written} {under : List Outline} {width : Nat} (hws : Flows [] ws)
    (hnext : Lexeme.isNamePart (first ws) = false) (hunder : AllFlowing under)
    (hwidth : 0 < width) (file : String) :
    ∃ ts eof, Scan.of file
        (String.ofList (chars width 0 (.line (word .css :: ws) under))) = ⟨ts, .eof eof⟩ ∧
      eof.kind = .eof ∧ Outlined ts [.line (word .css :: ws) under] := by
  obtain ⟨front, newline, n, hline, hfront, hnewline, hfresh⟩ :=
    @endsLine_css file ws (charsAll width 1 under ++ []) hws hnext
  obtain ⟨inner, m, htrace, hinner, hdone⟩ :=
    @trace_under _ _ width 0 _ [] scansLines_style _ hunder hwidth _ hfresh (.inl rfl)
      fun k hk => traceAll scansLines_style under hunder hwidth (by omega) hk (.inl rfl)
  have hwhole := hline.trans htrace
  have hchars : chars width 0 (.line (word .css :: ws) under) =
      "css".toList ++ (Written.line ws ++ '\n' :: (charsAll width 1 under ++ [])) := by
    rw [chars, Written.word, Written.line_cons_mark, Nat.zero_mul, append_nil, append_assoc]
    rfl
  rw [append_assoc, singleton_append, ← append_nil inner, ← hchars] at hwhole
  exact ⟨front ++ newline :: (inner ++ []), _, Scan.of_ends (.eof hwhole hdone.scan_eof rfl), rfl,
    .of_nested hfront hnewline hinner .nil⟩

end Outline

end Stencil
