import Stencil.Proofs.Style.Spelling
import Stencil.Proofs.Token.Moving
import Stencil.Proofs.Token.Outline

/-!
# Scanning style blocks

After the heading of a style block its words are scanned as style words, with marks on their
characters. A line of words, strings, signs and brackets is scanned into exactly these tokens if no
word runs into what follows it. Where a line starts, levels are opened and closed as in any outline.
-/
namespace Stencil

open Text (Cluster BreakClass BreakContext isApart isApart_of_isPlain isPlain)
open Text.Cluster (lead_single ofChars ofChars_append ofChars_cons ofChars_front ofChars_lineFeed
  takeWhile_ofChars)
open Written (line stamps)
open List Written

/-! ## Clusters of words -/

theorem isPlain_of_isStyleWordStart (h : Lexeme.isStyleWordStart c) : isPlain c :=
  Lexeme.isPlain_of_isStyleWordPart (Lexeme.isStyleWordPart_of_start h)

/-- A character of a style word leaves nothing behind that the next one could join to. -/
theorem next_of_isStyleWordChar (h : Lexeme.isStyleWordChar c) :
    BreakContext.next .other (.of c) = .other := by
  rcases Bool.or_eq_true_iff.mp h with hpart | hmark
  · rw [BreakClass.of_isPlain (Lexeme.isPlain_of_isStyleWordPart hpart)]
    rfl
  · revert hmark
    cases BreakClass.of c <;> simp [BreakClass.attaches, BreakContext.next]

theorem after_of_all (h : ∀ c ∈ cs, Lexeme.isStyleWordChar c) :
    BreakContext.after .other cs = .other := by
  induction cs with
  | nil => rfl
  | cons c cs ih =>
    obtain ⟨hc, hcs⟩ := forall_mem_cons.mp h
    rw [BreakContext.after_cons, next_of_isStyleWordChar hc, ih hcs]

/-- A mark joins to the character before it, so after the first cluster each is led by a character of
the word. -/
theorem isStyleWordPart_of_mem_tail (h : ∀ c ∈ cs, Lexeme.isStyleWordChar c) :
    ∀ k ∈ (ofChars cs).tail, Lexeme.isStyleWordPart k.lead := by
  induction cs with
  | nil => exact fun k hk => absurd hk not_mem_nil
  | cons c cs ih =>
    obtain ⟨hc, hcs⟩ := forall_mem_cons.mp h
    cases cs with
    | nil => exact fun k hk => absurd hk not_mem_nil
    | cons d ds =>
      have hlater := ih hcs
      obtain ⟨joined, ks, hks⟩ := Cluster.segmentFrom_ne_nil .other d ds
      have hnext := next_of_isStyleWordChar hc
      rw [ofChars, hks] at hlater
      rw [ofChars, Text.Cluster.segmentFrom.eq_2 .other c d ds _ _ (hnext.symm ▸ hks), hnext]
      split
      · exact hlater
      · next hjoins =>
        refine forall_mem_cons.mpr ⟨?_, hlater⟩
        have hmark : (BreakClass.of d).attaches ≠ true := by
          intro hmark
          revert hjoins hmark
          cases BreakClass.of d <;> simp [BreakClass.attaches, BreakContext.joins]
        have hpart := (Bool.or_eq_true_iff.mp (hcs d mem_cons_self)).resolve_right hmark
        rwa [Cluster.lead_of_first]
        rintro rfl
        cases hpart

theorem isStyleWordText_all {text : String} (h : isStyleWordText text) :
    ∀ c ∈ text.toList, Lexeme.isStyleWordChar c :=
  all_eq_true.mp (Bool.and_eq_true_iff.mp h).2

theorem isStyleWordPart_of_mem {text : String} (h : isStyleWordText text) :
    ∀ k ∈ ofChars text.toList, Lexeme.isStyleWordPart k.lead := by
  have htail := isStyleWordPart_of_mem_tail (isStyleWordText_all h)
  obtain ⟨c, cs, hcs, hc⟩ := exists_start_of_isStyleWordText h
  obtain ⟨k, ks, hks, -, hlead⟩ :=
    ofChars_front (isApart_of_isPlain (isPlain_of_isStyleWordStart hc)) cs
  rw [hcs, hks] at htail ⊢
  refine forall_mem_cons.mpr ⟨?_, htail⟩
  rw [hlead, Lexeme.isStyleWordPart_of_start hc]

/-! ## The scanner on a line -/

namespace Lexer

/-- The scanner stands inside a line of a style block, in front of a text. -/
abbrev Styled (l : Lexer) (levels : List Nat) (brackets : List Bracket) (cs : List Char) : Prop :=
  l.Within .style levels brackets (ofChars cs)

/-- A token is taken, and the line goes on with a text. -/
def Reads (l : Lexer) (levels : List Nat) (brackets : List Bracket) (w : Written)
    (cs : List Char) : Prop :=
  ∃ m : Lexer, l.Reaches [w] m ∧ m.Styled levels brackets cs

/-- Scanning goes through the tokens of what is left of a line, and the next line starts. -/
def EndsLine (l : Lexer) (levels : List Nat) (ws : List Written) (rest : List Char) : Prop :=
  ∃ ts newline m, l.Trace (ts ++ [newline]) m ∧ ts.map Token.stamp = stamps l.cursor.offset ws ∧
    newline.kind = .newline ∧ m.Fresh .style levels (ofChars rest)

variable {l : Lexer} {levels : List Nat} {brackets : List Bracket} {cs w rest : List Char}
  {ws : List Written} {kind : TokenKind}

/-- One token, and then the others of the line. -/
theorem Reads.endsLine {v : Written} (h : l.Reads levels brackets v cs)
    (hlater : ∀ m : Lexer, m.Styled levels brackets cs → m.EndsLine levels ws rest) :
    l.EndsLine levels (v :: ws) rest := by
  obtain ⟨m, ⟨us, htrace, hus, hoffset⟩, hm⟩ := h
  obtain ⟨ts, newline, n, htrace', hts, hnewline, hfresh⟩ := hlater m hm
  refine ⟨us ++ ts, newline, n, ?_, ?_, hnewline, hfresh⟩
  · rw [append_assoc]
    exact htrace.trans htrace'
  · rw [map_append, hus, hts, hoffset, ← Written.stamps_append, singleton_append]

/-- The clusters of a text are one token. -/
theorem Styled.taken (h : l.Styled levels brackets (w ++ cs))
    (hw : BreakContext.after .other w = .other) (hcs : ∀ c ∈ cs.head?, isApart c)
    {init : List Cluster} {k : Cluster} (hlast : ofChars w = init ++ [k]) (hfeed : k.lead ≠ '\n')
    (hcontent : l.content = .ok (l.take kind (ofChars w).length)) (hkind : kind.isInline) :
    l.Reads levels brackets (.mark kind (String.ofList w)) cs := by
  rw [Styled, ofChars_append hw hcs] at h
  rw [← Cluster.text_ofChars]
  obtain ⟨m, hreach, hm⟩ := h.at.taken hlast hfeed hkind hcontent
  exact ⟨m, hreach, hm.toWithin⟩

/-- A word is a style word, since no heading starts inside a line. -/
theorem Styled.headingMode (h : l.Styled levels brackets cs) (c : Char) : l.headingMode c = .style := by
  have hcolumn := h.column
  have hne : l.cursor.column ≠ 1 := by omega
  rw [Lexer.headingMode, decide_eq_false hne, h.mode]
  rfl

end Lexer

/-! ## Lines of style blocks -/

/-- The character that a line starts with, where an empty one is followed by the line break. -/
def Written.first (ws : List Written) : Char := (line ws).headD '\n'

/-- Such a line is not empty. -/
theorem Written.exists_front (h : isSolid (first ws)) :
    ∃ c cs, line ws = c :: cs ∧ isSolid c := by
  rw [first] at h
  cases hline : line ws with
  | nil =>
    rw [hline] at h
    cases h
  | cons c cs =>
    rw [hline] at h
    exact ⟨c, cs, rfl, h⟩

/-- A character that only starts signs, also where dashes belong to words. -/
def isStyleSign (c : Char) : Bool := Lexer.isSign c && !Lexeme.isStyleWordStart c

/-- What is left of a line while brackets are open. Nothing in it runs into what follows it: a word
ends in front of a character that is no part of one, and no two blanks stand together. -/
inductive Flows : List Bracket → List Written → Prop where
  | done : Flows [] []
  | blank {brackets : List Bracket} {ws : List Written} (hlater : Flows brackets ws)
      (hnext : Written.first ws ≠ ' ') : Flows brackets (.blank :: ws)
  | word {brackets : List Bracket} {ws : List Written} {text : String} (hlater : Flows brackets ws)
      (htext : isStyleWordText text = true)
      (hnext : Lexeme.isStyleWordPart (Written.first ws) = false) :
      Flows brackets (.mark .styleWord text :: ws)
  | string {brackets : List Bracket} {ws : List Written} {text : String}
      (hlater : Flows brackets ws) (htext : isStringText text = true) :
      Flows brackets (.mark .string text :: ws)
  | sign {brackets : List Bracket} {ws : List Written} {kind : TokenKind} {text : String} {c : Char}
      (hlater : Flows brackets ws) (htext : text.toList = [c]) (hc : isStyleSign c = true)
      (hsign : Lexeme.operator c (some (Written.first ws)) = some (kind, 1)) :
      Flows brackets (.mark kind text :: ws)
  | opening {brackets : List Bracket} {ws : List Written} (b : Bracket)
      (hlater : Flows (b :: brackets) ws) : Flows brackets (Written.opening b :: ws)
  | closing {brackets : List Bracket} {ws : List Written} (b : Bracket)
      (hlater : Flows brackets ws) : Flows (b :: brackets) (Written.closing b :: ws)

theorem Written.line_opening (b : Bracket) (ws : List Written) :
    line (opening b :: ws) = b.opening :: line ws := by
  rw [opening, line_cons_mark, Char.toString, String.toList_singleton]
  rfl

theorem Written.line_closing (b : Bracket) (ws : List Written) :
    line (closing b :: ws) = b.closing :: line ws := by
  rw [closing, line_cons_mark, Char.toString, String.toList_singleton]
  rfl

theorem not_isGap_of_isStyleWordStart (h : Lexeme.isStyleWordStart c) : isGap c = false := by
  have hne : ∀ d : Char, Lexeme.isStyleWordStart d = false → c ≠ d := by
    rintro d hd rfl
    rw [h] at hd
    cases hd
  simp [isGap, hne ' ' rfl, hne '\t' rfl, hne '\r' rfl, hne '\n' rfl, hne '#' rfl]

theorem isSolid_of_isStyleWordStart (h : Lexeme.isStyleWordStart c) : isSolid c :=
  isSolid_iff.mpr ⟨isPlain_of_isStyleWordStart h, not_isGap_of_isStyleWordStart h⟩

theorem isStyleSign_cases (h : isStyleSign c) :
    Lexer.isSign c ∧ Lexeme.isStyleWordStart c = false := by
  simpa [isStyleSign] using h

namespace Flows

variable {brackets : List Bracket} {ws : List Written}

/-- A line is empty, or starts with a blank or with a token. -/
theorem front (h : Flows brackets ws) :
    (ws = [] ∧ brackets = []) ∨ Written.first ws = ' ' ∨
      ∃ c cs, line ws = c :: cs ∧ isSolid c := by
  have hmark : ∀ {kind : TokenKind} {text : String} {c : Char} {cs : List Char} {ws : List Written},
      text.toList = c :: cs → isSolid c →
      ∃ c cs, line (.mark kind text :: ws) = c :: cs ∧ isSolid c := by
    intro kind text c cs ws htext hc
    exact ⟨c, _, by rw [Written.line_cons_mark, htext, cons_append], hc⟩
  cases h with
  | done => exact .inl ⟨rfl, rfl⟩
  | blank => exact .inr (.inl rfl)
  | word _ htext =>
    obtain ⟨c, cs, hcs, hc⟩ := exists_start_of_isStyleWordText htext
    exact .inr (.inr (hmark hcs (isSolid_of_isStyleWordStart hc)))
  | string _ htext =>
    obtain ⟨c, cs, hcs, hc⟩ := isStringText_front htext
    refine .inr (.inr (hmark hcs ?_))
    rcases hc with rfl | rfl <;> decide
  | sign _ htext hc =>
    exact .inr (.inr (hmark htext (Lexer.isSolid_of_isSign (isStyleSign_cases hc).1)))
  | opening b =>
    exact .inr (.inr ⟨b.opening, _, Written.line_opening b _, by cases b <;> decide⟩)
  | closing b =>
    exact .inr (.inr ⟨b.closing, _, Written.line_closing b _, by cases b <;> decide⟩)

/-- What is left of a source starts with the same character as the line. -/
theorem head?_line (ws : List Written) (rest : List Char) :
    (line ws ++ '\n' :: rest).head? = some (Written.first ws) := by
  rw [first]
  cases line ws <;> rfl

theorem apart (h : Flows brackets ws) (rest : List Char) :
    ∀ c ∈ (line ws ++ '\n' :: rest).head?, isApart c := by
  rw [head?_line]
  rintro c ⟨⟩
  rcases h.front with ⟨rfl, -⟩ | hblank | ⟨c, cs, hcs, hc⟩
  · rfl
  · rw [hblank]
    rfl
  · rw [Written.first, hcs]
    exact isApart_of_isSolid hc

end Flows

/-! ## Scanning a line -/

namespace Lexer

variable {l : Lexer} {levels : List Nat} {brackets : List Bracket} {cs rest : List Char}
  {ws : List Written} {c : Char}

theorem Styled.word {text : String} (h : l.Styled levels brackets (text.toList ++ cs))
    (hcs : ∀ c ∈ cs.head?, isApart c) (htext : isStyleWordText text)
    (hnext : ∀ c ∈ cs.head?, Lexeme.isStyleWordPart c = false) :
    l.Reads levels brackets (.mark .styleWord text) cs := by
  obtain ⟨c, ds, hds, hc⟩ := exists_start_of_isStyleWordText htext
  have hparts := isStyleWordPart_of_mem htext
  have hafter := after_of_all (isStyleWordText_all htext)
  have hapart := isApart_of_isPlain (isPlain_of_isStyleWordStart hc)
  obtain ⟨k, ks, hks, -, hlead⟩ := ofChars_front hapart (ds ++ cs)
  rw [← cons_append, ← hds] at hks
  have hrun : Lexeme.run Lexeme.isStyleWordPart l.cursor.rest = (ofChars text.toList).length := by
    rw [h.rest, ofChars_append hafter hcs, Lexeme.run, takeWhile_append_of_pos hparts,
      takeWhile_ofChars hcs hnext, append_nil]
  have hcontent : l.content = .ok (l.take .styleWord (ofChars text.toList).length) := by
    rw [← hlead] at hc
    rw [← hrun]
    exact Takes.content_of_front (.styleWord hc (h.headingMode _)) (h.rest.trans hks)
      (not_isGap_of_isStyleWordStart hc)
  obtain ⟨j, js, hfront, -, -⟩ := ofChars_front hapart ds
  rw [← hds] at hfront
  obtain ⟨init, last, hlast⟩ := (eq_nil_or_concat' (ofChars text.toList)).resolve_left
    (by rw [hfront]; exact cons_ne_nil j js)
  have hfeed : last.lead ≠ '\n' := by
    intro hfeed
    have hpart := hparts last (by rw [hlast]; exact mem_append_right _ mem_cons_self)
    rw [hfeed] at hpart
    cases hpart
  have htaken := h.taken hafter hcs hlast hfeed hcontent rfl
  rwa [String.ofList_toList] at htaken

/-- A token that is scanned as outside of style blocks. -/
theorem Reads.of_beyond {v : Written}
    (h : ∃ m : Lexer, l.Reaches [v] m ∧ m.Beyond .style levels brackets (ofChars cs)) :
    l.Reads levels brackets v cs := by
  obtain ⟨m, hreach, hm⟩ := h
  exact ⟨m, hreach, hm.toWithin⟩

theorem Styled.opening (b : Bracket) (h : l.Styled levels brackets (b.opening :: cs))
    (hcs : ∀ c ∈ cs.head?, isApart c) : l.Reads levels (b :: brackets) (Written.opening b) cs := by
  rw [Styled, ofChars_cons (by cases b <;> decide) hcs] at h
  exact .of_beyond (h.at.opening b)

theorem Styled.closing (b : Bracket) (h : l.Styled levels (b :: brackets) (b.closing :: cs))
    (hcs : ∀ c ∈ cs.head?, isApart c) : l.Reads levels brackets (Written.closing b) cs := by
  rw [Styled, ofChars_cons (by cases b <;> decide) hcs] at h
  exact .of_beyond (h.at.closing b)

/-- A blank in front of a token or of the end of a line makes no difference. -/
theorem Styled.blank (h : l.Styled levels brackets (' ' :: c :: cs)) (hc : isApart c)
    (hgap : isGap c = false ∨ c = '\n' ∧ brackets = [])
    (hlater : ∀ m : Lexer, m.Styled levels brackets (c :: cs) → m.EndsLine levels ws rest) :
    l.EndsLine levels (.blank :: ws) rest := by
  obtain ⟨k, ks, hks, -, hlead⟩ := ofChars_front hc cs
  rw [Styled, ofChars_cons (by decide) (by rintro _ ⟨⟩; exact hc), hks] at h
  obtain ⟨m, hm, hoffset, hscan⟩ := h.at.blank (by rwa [hlead])
  rw [← hks] at hm
  obtain ⟨ts, newline, n, htrace, hts, hnewline, hfresh⟩ := hlater m hm
  refine ⟨ts, newline, n, htrace.of_scan_eq h.fault hscan, ?_, hnewline, hfresh⟩
  rw [hts, hoffset]
  rfl

/-- At the end of a line the next one starts. -/
theorem Styled.endsLine (h : l.Styled levels [] ('\n' :: rest)) : l.EndsLine levels [] rest := by
  rw [Styled, ofChars_lineFeed] at h
  obtain ⟨t, m, htrace, ht, hfresh⟩ := h.newline (lead_single _)
  exact ⟨[], t, m, htrace, rfl, ht, hfresh⟩

end Lexer

/-- A line is scanned into its tokens. -/
theorem Flows.endsLine {brackets : List Bracket} (h : Flows brackets ws) {l : Lexer}
    {levels : List Nat} {rest : List Char} (hl : l.Styled levels brackets (line ws ++ '\n' :: rest))
    : l.EndsLine levels ws rest := by
  induction h generalizing l with
  | done => exact hl.endsLine
  | @blank brackets ws hlater hnext ih =>
    obtain ⟨c, cs, hcs, hc, hgap⟩ : ∃ c cs, line ws ++ '\n' :: rest = c :: cs ∧
        isApart c ∧ (isGap c = false ∨ c = '\n' ∧ brackets = []) := by
      rcases hlater.front with ⟨rfl, rfl⟩ | hblank | ⟨c, cs, hcs, hc⟩
      · exact ⟨'\n', rest, rfl, rfl, .inr ⟨rfl, rfl⟩⟩
      · exact absurd hblank hnext
      · exact ⟨c, _, by rw [hcs, cons_append], isApart_of_isSolid hc,
          .inl (isSolid_iff.mp hc).2⟩
    have hfront : l.Styled levels brackets (' ' :: c :: cs) := by
      rw [← hcs]
      exact hl
    exact hfront.blank hc hgap fun m hm => ih (by rwa [hcs])
  | word hlater htext hnext ih =>
    rw [line_cons_mark, append_assoc] at hl
    refine (hl.word (hlater.apart rest) htext ?_).endsLine fun m hm => ih hm
    rw [head?_line]
    rintro c ⟨⟩
    exact hnext
  | string hlater htext ih =>
    rw [line_cons_mark, append_assoc] at hl
    exact (Lexer.Reads.of_beyond (hl.at.string htext (hlater.apart rest))).endsLine fun m hm => ih hm
  | @sign brackets ws kind text c hlater htext hc hsign ih =>
    obtain ⟨hc, hstart⟩ := isStyleSign_cases hc
    rw [line_cons_mark, append_assoc, htext] at hl
    have hreach := hl.at.sign (by rw [hstart]; exact fun h => absurd h Bool.false_ne_true) hc rfl
      (hlater.apart rest) ((congrArg _ (head?_line ws rest)).trans hsign)
    rw [← htext, String.ofList_toList] at hreach
    exact (Lexer.Reads.of_beyond hreach).endsLine fun m hm => ih hm
  | opening b hlater ih =>
    rw [line_opening] at hl
    exact (hl.opening b (hlater.apart rest)).endsLine fun m hm => ih hm
  | closing b hlater ih =>
    rw [line_closing] at hl
    exact (hl.closing b (hlater.apart rest)).endsLine fun m hm => ih hm

end Stencil
