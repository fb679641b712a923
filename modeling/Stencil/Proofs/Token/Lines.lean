import Stencil.Proofs.Token.Scanning

/-!
# Lines of tokens

A line that is written token by token, with blanks between them where words would run together, is
scanned into exactly these tokens. Lines are put together from single tokens, operators between
blanks, signs right in front of what follows them, and brackets.
-/
namespace Stencil

open Lexer Written List
open Text (Cluster isApart isDigit)
open Text.Cluster (ofChars ofChars_cons ofChars_front)

/-- A line that is scanned into its tokens, in front of any rest that does not go on in the same
word. It starts with a token and ends with one. A line that may not stand `anywhere` has to follow
another token. -/
structure Scans (before : List Bracket) (ws : List Written) (after : List Bracket)
    (anywhere : Bool := true) : Prop where
  reaches : ∀ (l : Lexer) (levels : List Nat) (rest : List Char),
    l.At levels before (line ws ++ rest) → (anywhere = true ∨ 2 ≤ l.cursor.column) →
      isClear rest = true → ∃ m : Lexer, l.Reaches ws m ∧ m.Past levels after rest
  first : ∃ c cs, line ws = c :: cs ∧ isSolid c = true
  last : ∃ cs c, line ws = cs ++ [c] ∧ isSolid c = true
  front : marks ws ≠ []

namespace Scans

variable {before between after : List Bracket} {xs ys : List Written} {p q : Bool}
  {kind : TokenKind} {text w : String} {c d : Char} {cs ds : List Char} {k : Keyword}

theorem inner (h : Scans before xs after p) : Scans before xs after false :=
  ⟨fun l levels rest hl hp =>
      h.reaches l levels rest hl (.inr (hp.resolve_left Bool.false_ne_true)),
    h.first, h.last, h.front⟩

/-- Nothing joins to a line that starts here. -/
theorem apart (h : Scans before xs after p) (rest : List Char) :
    ∀ c ∈ (line xs ++ rest).head?, isApart c := by
  obtain ⟨c, cs, hc, hsolid⟩ := h.first
  rw [hc]
  rintro _ ⟨⟩
  exact isApart_of_isSolid hsolid

/-- What may follow a token on its line. -/
structure Ends (between : List Bracket) (ys : List Written) (after : List Bracket) : Prop where
  reaches : ∀ (l : Lexer) (levels : List Nat) (rest : List Char),
    l.At levels between (line ys ++ rest) → 2 ≤ l.cursor.column → isClear rest = true →
      ∃ m : Lexer, l.Reaches ys m ∧ m.Past levels after rest
  last : ∃ cs c, line ys = cs ++ [c] ∧ isSolid c = true

theorem ends (h : Scans before xs after p) : Ends before xs after :=
  ⟨fun l levels rest hl hcolumn => h.reaches l levels rest hl (.inr hcolumn), h.last⟩

/-- A line that starts after a blank. -/
theorem blank (h : Scans before xs after p) : Ends before (.blank :: xs) after where
  reaches l levels rest hl hcolumn hrest := by
    obtain ⟨c, cs, hc, hsolid⟩ := h.first
    have hfront : l.At levels before (' ' :: (line xs ++ rest)) := hl
    rw [hc, cons_append] at hfront
    obtain ⟨l', hl', hcolumn, hsame⟩ := hfront.blank hsolid
    rw [← cons_append, ← hc] at hl'
    obtain ⟨m, hreach, hpast⟩ := h.reaches l' levels rest hl' (.inr hcolumn) hrest
    exact ⟨m, hsame xs m h.front hreach, hpast⟩
  last := by
    obtain ⟨cs, c, hc, hsolid⟩ := h.last
    exact ⟨' ' :: cs, c, congrArg (' ' :: ·) hc, hsolid⟩

/-- Tokens and what follows them. -/
theorem of_ends (hreaches : ∀ (l : Lexer) (levels : List Nat) (rest : List Char),
      l.At levels before (line xs ++ (line ys ++ rest)) → (p ∨ 2 ≤ l.cursor.column) → isClear rest →
        ∃ m : Lexer, l.Reaches xs m ∧ m.Past levels between (line ys ++ rest))
    (hfirst : ∃ c cs, line xs = c :: cs ∧ isSolid c) (hfront : marks xs ≠ [])
    (hys : Ends between ys after) : Scans before (xs ++ ys) after p where
  reaches l levels rest hl hp hrest := by
    rw [line_append, append_assoc] at hl
    obtain ⟨m, hm, hpast⟩ := hreaches l levels rest hl hp hrest
    obtain ⟨n, hn, hdone⟩ := hys.reaches m levels rest hpast.at hpast.column hrest
    exact ⟨n, hm.trans hn, hdone⟩
  first := by
    obtain ⟨c, cs, hc, hsolid⟩ := hfirst
    exact ⟨c, cs ++ line ys, by rw [line_append, hc, cons_append], hsolid⟩
  last := by
    obtain ⟨cs, c, hc, hsolid⟩ := hys.last
    exact ⟨line xs ++ cs, c, by rw [line_append, hc, append_assoc], hsolid⟩
  front := by
    rw [marks_append]
    exact append_ne_nil_of_left_ne_nil hfront _

/-- One line after another, where the second cannot go on with the last word of the first. -/
theorem append (hxs : Scans before xs between p) (hys : Scans between ys after q)
    (hclear : ∀ rest, isClear rest → isClear (line ys ++ rest)) :
    Scans before (xs ++ ys) after p :=
  of_ends (fun l levels rest hl hp hrest => hxs.reaches l levels _ hl hp (hclear rest hrest))
    hxs.first hxs.front hys.ends

/-- Two lines with a blank between them. -/
theorem append_blank (hxs : Scans before xs between p) (hys : Scans between ys after q) :
    Scans before (xs ++ .blank :: ys) after p :=
  of_ends (fun l levels _ hl hp _ => hxs.reaches l levels _ hl hp rfl) hxs.first hxs.front hys.blank

/-- A single token. -/
theorem single (hreaches : ∀ (l : Lexer) (levels : List Nat) (rest : List Char),
      l.At levels before (text.toList ++ rest) → (p ∨ 2 ≤ l.cursor.column) →
        isClear rest → ∃ m : Lexer, l.Reaches [.mark kind text] m ∧ m.Past levels after rest)
    (hfirst : text.toList = c :: cs) (hc : isSolid c) (hlast : text.toList = ds ++ [d])
    (hd : isSolid d) :
    Scans before [.mark kind text] after p := by
  have hline := line_single kind text
  refine ⟨?_, ⟨c, cs, hline.trans hfirst, hc⟩, ⟨ds, d, hline.trans hlast, hd⟩, cons_ne_nil _ _⟩
  intro l levels rest hl hp hrest
  rw [hline] at hl
  exact hreaches l levels rest hl hp hrest

/-- A single token without a gap in it. -/
theorem solid (hreaches : ∀ (l : Lexer) (levels : List Nat) (rest : List Char),
      l.At levels before (text.toList ++ rest) → (p ∨ 2 ≤ l.cursor.column) →
        isClear rest → ∃ m : Lexer, l.Reaches [.mark kind text] m ∧ m.Past levels after rest)
    (hne : text.toList ≠ []) (hsolid : text.toList.all isSolid) :
    Scans before [.mark kind text] after p := by
  obtain ⟨c, cs, hfirst⟩ := exists_cons_of_ne_nil hne
  obtain ⟨ds, d, hlast, hd⟩ := exists_last_of_all hne hsolid
  refine single hreaches hfirst (all_eq_true.mp hsolid c ?_) hlast hd
  rw [hfirst]
  exact mem_cons_self

/-- A word, where `css` may not stand at the start of a line. -/
theorem anyWord (hw : isWordText w) (hstyle : TokenKind.ofWord w ≠ .keyword .css ∨ p = false)
    : Scans before [.mark (.ofWord w) w] before p := by
  obtain ⟨c, cs, hcs, _, _⟩ := isWordText_cases hw
  have hparts := all_eq_true.mp (all_isNamePart hw)
  refine solid (fun l levels rest hl hp hrest => hl.word hw hrest ?_) ?_ ?_
  · rcases hstyle with hstyle | rfl
    · exact .inl hstyle
    · exact .inr (hp.resolve_left Bool.false_ne_true)
  · rw [hcs]
    exact cons_ne_nil c cs
  · exact all_eq_true.mpr fun d hd => isSolid_of_isNamePart (hparts d hd)

theorem word (hw : isWordText w) (hstyle : TokenKind.ofWord w ≠ .keyword .css) :
    Scans before [.mark (.ofWord w) w] before :=
  anyWord hw (.inl hstyle)

theorem innerWord (hw : isWordText w) : Scans before [.mark (.ofWord w) w] before false :=
  anyWord hw (.inr rfl)

theorem keyword (hk : k ≠ .css) : Scans before [Written.word k] before := by
  have hkind : TokenKind.ofWord k.text = .keyword k := by cases k <;> decide
  have hword : isWordText k.text := by cases k <;> decide
  have hscans : Scans before [.mark (.ofWord k.text) k.text] before :=
    word hword (by rw [hkind]; exact fun heq => hk (TokenKind.keyword.inj heq))
  rw [hkind] at hscans
  exact hscans

theorem numeral {digits : String} (h : Script.isNumeral digits) :
    Scans before [.mark .number digits] before := by
  obtain ⟨c, cs, hcs, _, _⟩ := isNumeral_front h
  refine solid (fun l levels rest hl _ hrest => hl.numeral h (endsNumber_of_isClear hrest)) ?_
    (all_of_isNumeral isSolid_of_isNamePart (by decide) h)
  rw [hcs]
  exact cons_ne_nil c cs

/-- A text that is one string and ends in a quote. -/
theorem literal (h : isStringText text) (hlast : text.toList = ds ++ [d]) (hd : isSolid d) :
    Scans before [.mark .string text] before := by
  obtain ⟨c, cs, hfirst, hquote⟩ := isStringText_front h
  have hc : isSolid c := by
    rcases hquote with rfl | rfl <;> decide
  exact single (fun l levels rest hl _ hrest => hl.string h fun c hc => (isClear_front hrest c hc).1)
    hfirst hc hlast hd

theorem string {text : List Char} (h : isStringText (Literal.quote text)) :
    Scans before [.mark .string (Literal.quote text)] before := by
  have hlast : (Literal.quote text).toList = ('"' :: text.flatMap Literal.escape) ++ ['"'] :=
    quote_toList text
  exact literal h hlast (by decide)

/-- A line in brackets, or nothing in brackets. -/
theorem enclose (b : Bracket) (h : xs = [] ∨ Scans (b :: before) xs (b :: before) false) :
    Scans before (Written.enclose b xs) before := by
  have hline : line (Written.enclose b xs) = b.opening :: (line xs ++ [b.closing]) := by
    rw [Written.enclose, cons_append]
    simp [line, Written.chars, opening, closing]
  have hopening : isSolid b.opening := by cases b <;> decide
  have hclosing : isSolid b.closing := by cases b <;> decide
  refine ⟨?_, ⟨_, _, hline, hopening⟩, ?_, cons_ne_nil _ _⟩
  · intro l levels rest hl _ hrest
    have hapart : ∀ c ∈ (line xs ++ ([b.closing] ++ rest)).head?, isApart c := by
      rcases h with rfl | h
      · rintro _ ⟨⟩
        exact isApart_of_isSolid hclosing
      · exact h.apart _
    rw [hline, cons_append, append_assoc, At, ofChars_cons (isSolid_iff.mp hopening).1 hapart] at hl
    obtain ⟨m, hm, hinside⟩ := hl.opening b
    have hafter : ∃ n : Lexer,
        m.Reaches xs n ∧ n.Past levels (b :: before) (b.closing :: rest) := by
      rcases h with rfl | h
      · exact ⟨m, .refl m, hinside⟩
      · exact h.reaches m levels _ hinside.at (.inr hinside.column) (by cases b <;> rfl)
    obtain ⟨n, hn, hend⟩ := hafter
    rw [Past, ofChars_cons (isSolid_iff.mp hclosing).1 fun c hc => (isClear_front hrest c hc).1]
      at hend
    obtain ⟨k, hk, hpast⟩ := hend.at.closing b
    exact ⟨k, hm.trans (hn.trans hk), hpast⟩
  · exact ⟨b.opening :: line xs, b.closing, by rw [hline, cons_append], hclosing⟩

/-- An operator, a comma or a word between blanks: it is scanned in front of a blank. -/
structure Operates (kind : TokenKind) (text : String) : Prop where
  reaches : ∀ (l : Lexer) (levels : List Nat) (before : List Bracket) (rest : List Char),
    l.At levels before (text.toList ++ ' ' :: rest) →
      ∃ m : Lexer, l.Reaches [.mark kind text] m ∧ m.Past levels before (' ' :: rest)
  first : ∃ c cs, text.toList = c :: cs ∧ isSolid c = true

/-- An operator with its right operand. -/
theorem operator (h : Operates kind text) (hxs : Scans before xs after q) :
    Scans before (.mark kind text :: .blank :: xs) after := by
  have hline := line_single kind text
  have hfront : marks [.mark kind text] ≠ [] := cons_ne_nil _ _
  refine of_ends (fun l levels rest hl _ _ => ?_) (by rw [hline]; exact h.first) hfront hxs.blank
  rw [hline] at hl
  exact h.reaches l levels before _ hl

theorem Operates.keyword (hk : k ≠ .css) : Operates (.keyword k) k.text := by
  have hscans (before : List Bracket) : Scans before [Written.word k] before := Scans.keyword hk
  have hline : line [Written.word k] = k.text.toList := line_single _ _
  refine ⟨fun l levels before rest hl => ?_, hline ▸ (hscans []).first⟩
  exact (hscans before).reaches l levels (' ' :: rest) (by rw [hline]; exact hl) (.inl rfl) rfl

theorem Operates.sign (htext : text = String.ofList (c :: cs)) (hc : isSign c)
    (hcs : cs.all isSolid) (hsign : Lexeme.operator c (cs ++ [' ']).head? = some (kind, cs.length + 1)) :
    Operates kind text := by
  have hchars : text.toList = c :: cs := by rw [htext, String.toList_ofList]
  refine ⟨fun l levels before rest hl => ?_, ⟨c, cs, hchars, isSolid_of_isSign hc⟩⟩
  rw [hchars] at hl
  rw [htext]
  refine hl.sign (fun _ => rfl) hc hcs (by rintro _ ⟨⟩; rfl) ?_
  rw [← hsign]
  cases cs <;> rfl

/-- A sign of one character right in front of what follows it. -/
theorem tight (htext : text = String.ofList [c]) (hc : isSign c)
    (hsign : Lexeme.operator c (some d) = some (kind, 1)) (hxs : Scans before xs after q)
    (hd : line xs = d :: ds) : Scans before (.mark kind text :: xs) after := by
  have hline : line [.mark kind text] = [c] := by
    rw [line_single, htext, String.toList_ofList]
  have hfront : marks [.mark kind text] ≠ [] := cons_ne_nil _ _
  refine of_ends (fun l levels rest hl _ _ => ?_) ⟨c, [], hline, isSolid_of_isSign hc⟩ hfront hxs.ends
  rw [hline] at hl
  rw [htext]
  exact @On.sign l .plain levels before c [] (line xs ++ rest) kind hl (fun _ => rfl) hc rfl
    (hxs.apart rest) (by rw [hd]; exact hsign)

/-- A name with a dot in front, where any word will do. -/
theorem member (hw : isWordText w) (hxs : Scans before xs after p) :
    Scans before (xs ++ [.mark .dot ".", .mark (.ofWord w) w]) after p := by
  obtain ⟨c, cs, hcs, hc, _⟩ := isWordText_cases hw
  have hline : line [.mark (.ofWord w) w] = c :: cs := (line_single _ _).trans hcs
  have hdot : Scans after [.mark .dot ".", .mark (.ofWord w) w] after :=
    tight (c := '.') rfl (by decide) rfl (innerWord hw) hline
  refine hxs.append hdot fun rest _ => ?_
  have hdigit : isDigit c = false := by
    rw [Bool.eq_false_iff]
    intro hdigit
    rw [not_isLetter_of_isDigit hdigit] at hc
    cases hc
  have hdots : line [.mark .dot ".", .mark (.ofWord w) w] = '.' :: c :: cs :=
    congrArg ('.' :: ·) hline
  rw [hdots]
  simp [isClear, hdigit, isApart_of_isLetter hc]

end Scans

/-- At the end of the text the line ends, and then the source. -/
theorem Lexer.Past.trace_end {m : Lexer} (h : m.Past [0] [] []) :
    ∃ n : Lexer, m.Trace [m.token .newline ""] n ∧ n.scan = .ok (m.token .eof "", n) := by
  have hlayout := h.last
  rw [TokenKind.isInline, Bool.not_eq_true'] at hlayout
  have hat : Lexer.At { m with last := .newline } [0] [] [] :=
    ⟨h.rest, h.brackets, h.indents, h.mode, h.fault, .inl h.column⟩
  refine ⟨_, h.at.trace (m := m) ?_ TokenKind.noConfusion, ?_⟩
  · rw [content_of_empty h.rest, finish, h.brackets, hlayout]
    rfl
  · rw [Lexer.token, hat.scan_eq, content_of_empty hat.rest, finish]
    simp only [h.indents, h.brackets]
    rfl

/-! ## Tokens that stand as on a line -/

/-- The tokens are those of a line and stand as on it, wherever the line starts. -/
def Stands (ts : List Token) (ws : List Written) : Prop :=
  ∃ offset, ts.map Token.stamp = stamps offset ws

namespace Stands

variable {ts : List Token} {ws ws' : List Written} {kind : TokenKind} {text : String}

theorem append (h : Stands ts (ws ++ ws')) :
    ∃ front back, ts = front ++ back ∧ Stands front ws ∧ Stands back ws' := by
  obtain ⟨offset, h⟩ := h
  rw [stamps_append] at h
  obtain ⟨front, back, rfl, hfront, hback⟩ := map_eq_append_iff.mp h
  exact ⟨front, back, rfl, ⟨_, hfront⟩, ⟨_, hback⟩⟩

theorem cons (h : Stands ts (.mark kind text :: ws)) :
    ∃ t rest, ts = t :: rest ∧ t.kind = kind ∧ t.literal = text ∧ Stands rest ws := by
  obtain ⟨offset, h⟩ := h
  obtain ⟨t, rest, rfl, ht, hrest⟩ := map_eq_cons_iff.mp h
  cases ht
  exact ⟨t, rest, rfl, rfl, rfl, ⟨_, hrest⟩⟩

theorem blank (h : Stands ts (.blank :: ws)) : Stands ts ws := by
  obtain ⟨offset, h⟩ := h
  exact ⟨offset + 1, h⟩

theorem map_mark (h : Stands ts ws) : ts.map Token.mark = marks ws := by
  obtain ⟨offset, h⟩ := h
  rw [← map_fst_stamps offset ws, ← h, map_map]
  rfl

theorem length (h : Stands ts ws) : ts.length = (marks ws).length := by
  rw [← h.map_mark, length_map]

theorem nil (h : Stands ts []) : ts = [] := map_eq_nil_iff.mp h.map_mark

theorem single (h : Stands ts [.mark kind text]) :
    ∃ t, ts = [t] ∧ t.kind = kind ∧ t.literal = text := by
  obtain ⟨t, rest, rfl, hkind, htext, hrest⟩ := h.cons
  rw [hrest.nil]
  exact ⟨t, rfl, hkind, htext⟩

theorem enclose {b : Bracket} (h : Stands ts (enclose b ws)) :
    ∃ first middle last, ts = first :: (middle ++ [last]) ∧ first.kind = .opening b ∧
      last.kind = .closing b ∧ Stands middle ws := by
  obtain ⟨first, rest, rfl, hfirst, -, hrest⟩ := h.cons
  obtain ⟨middle, back, rfl, hmiddle, hback⟩ := append hrest
  obtain ⟨last, rfl, hlast, -⟩ := hback.single
  exact ⟨first, middle, last, rfl, hfirst, hlast, hmiddle⟩

theorem comma (h : Stands ts (ws ++ Written.comma ++ ws')) :
    ∃ front t back, ts = front ++ t :: back ∧ t.kind = .comma ∧ Stands front ws ∧
      Stands back ws' := by
  obtain ⟨most, back, rfl, hmost, hback⟩ := append h
  obtain ⟨front, middle, rfl, hfront, hmiddle⟩ := append hmost
  obtain ⟨t, rest, rfl, hkind, -, hrest⟩ := cons hmiddle
  rw [(blank hrest).nil]
  exact ⟨front, t, back, by simp, hkind, hfront, hback⟩

end Stands

/-- The text of a line is scanned into its tokens and the end of the line. -/
theorem scan_line {ws : List Written} (h : Scans [] ws []) (file : String) :
    ∃ (ts : List Token) (newline eof : Token),
      Scan.of file (String.ofList (line ws)) = ⟨ts ++ [newline], .eof eof⟩ ∧
      Stands ts ws ∧ newline.kind = .newline ∧ eof.kind = .eof := by
  have hstart : (Lexer.start file (String.ofList (line ws))).At [0] [] (line ws ++ []) := by
    obtain ⟨c, cs, hc, hsolid⟩ := h.first
    obtain ⟨k, ks, hks, -, hlead⟩ := ofChars_front (isApart_of_isSolid hsolid) cs
    rw [append_nil]
    exact ⟨Cluster.segment_ofList _, rfl, rfl, rfl, rfl, .inr ⟨rfl, rfl, k, ks, by rw [hc, hks],
      by rw [hlead]; exact (isSolid_iff.mp hsolid).2⟩⟩
  obtain ⟨m, ⟨ts, htrace, hts, _⟩, hpast⟩ := h.reaches _ _ _ hstart (.inl rfl) rfl
  obtain ⟨n, hlast, hend⟩ := hpast.trace_end
  exact ⟨ts, m.token .newline "", m.token .eof "",
    Scan.of_ends (.eof (htrace.trans hlast) hend rfl), ⟨_, hts⟩, rfl, rfl⟩

end Stencil
