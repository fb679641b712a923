import Stencil.Proofs.Style.Scanning

/-!
# Lines that are chains of names

A line such as `li.wide.btn-2x` is a tag and names with dots in front of them. Outside of style
blocks it falls into words, numbers, dashes and dots, and a dot in front of a digit belongs to a
number. Inside of style blocks it is one word, with perhaps a dot in front of it.
-/
namespace Stencil

open Text (Cluster isLetter isDigit splitChars)
open Text.Cluster (lead_single)
open List

/-! ## Chains of names -/

namespace ClassChain

/-- Every dot stands right in front of a digit. -/
def dotsInNumbers : List Char → Bool
  | [] => true
  | c :: cs => (c ≠ '.' || cs.head?.any isDigit) && dotsInNumbers cs

/-- A dot stands right in front of a digit. -/
def hasDecimalDot : List Char → Bool
  | [] => false
  | c :: cs => (c = '.' && cs.head?.any isDigit) || hasDecimalDot cs

/-- The name of a class in markup: it starts with a letter, and its dots are those of numbers. -/
def isName (name : List Char) : Bool := name.head?.any isLetter && dotsInNumbers name

/-- A tag, which may be empty, and names with a dot in front of each. -/
def chars (tag : List Char) (names : List (List Char)) : List Char := tag ++ names.flatMap ('.' :: ·)

variable {tag v w : List Char} {names : List (List Char)} {kind : TokenKind}

theorem dotsInNumbers_append (hw : dotsInNumbers w) (hv : dotsInNumbers v) :
    dotsInNumbers (w ++ v) := by
  induction w with
  | nil => exact hv
  | cons c cs ih =>
    rw [dotsInNumbers, Bool.and_eq_true] at hw
    rw [cons_append, dotsInNumbers, ih hw.2, Bool.and_true]
    cases cs with
    | nil =>
      have hc : c ≠ '.' := by simpa using hw.1
      rw [decide_eq_true hc, Bool.true_or]
    | cons d ds => exact hw.1

theorem dotsInNumbers_of_not_mem (h : '.' ∉ w) : dotsInNumbers w := by
  induction w with
  | nil => rfl
  | cons c cs ih =>
    rw [mem_cons, not_or] at h
    rw [dotsInNumbers, ih h.2, decide_eq_true (Ne.symm h.1)]
    rfl

/-- The dots of the first text are followed by digits of the first text. -/
theorem hasDecimalDot_append (hw : dotsInNumbers w) :
    hasDecimalDot (w ++ v) = (w.contains '.' || hasDecimalDot v) := by
  induction w with
  | nil => rfl
  | cons c cs ih =>
    rw [dotsInNumbers, Bool.and_eq_true] at hw
    rw [cons_append, hasDecimalDot, ih hw.2, contains_cons, Bool.or_assoc]
    by_cases hc : c = '.'
    · subst hc
      cases cs with
      | nil => simp at hw
      | cons d ds =>
        have hd : isDigit d := by simpa using hw.1
        simp [hd]
    · have hne : ('.' == c) = false := by simpa using Ne.symm hc
      rw [decide_eq_false hc, hne, Bool.false_and]

theorem hasDecimalDot_names (hnames : ∀ name ∈ names, isName name) :
    hasDecimalDot (names.flatMap ('.' :: ·)) = names.any (·.contains '.') := by
  induction names with
  | nil => rfl
  | cons name names ih =>
    rw [forall_mem_cons] at hnames
    obtain ⟨hhead, hdots⟩ := Bool.and_eq_true_iff.mp hnames.1
    rw [flatMap_cons, cons_append, hasDecimalDot, hasDecimalDot_append hdots, ih hnames.2, any_cons]
    cases name with
    | nil => cases hhead
    | cons c cs =>
      have hc : isDigit c = false := by
        rw [Bool.eq_false_iff]
        intro hdigit
        rw [head?_cons, Option.any_some, not_isLetter_of_isDigit hdigit] at hhead
        cases hhead
      simp [hc]

/-- The parts behind a dot are not empty, for a digit follows it. -/
theorem ne_nil_of_mem_tail (hw : dotsInNumbers w) :
    ∀ part ∈ (splitChars '.' w).tail, part ≠ [] := by
  induction w with
  | nil => simp [splitChars]
  | cons c cs ih =>
    rw [dotsInNumbers, Bool.and_eq_true] at hw
    by_cases hc : c = '.'
    · subst hc
      cases cs with
      | nil => simp at hw
      | cons d ds =>
        have hd : d ≠ '.' := by
          rintro rfl
          simp at hw
          exact absurd hw.1 (by decide)
        obtain ⟨part, parts, -, hsplit⟩ := Text.splitChars_cons hd ds
        have hdot : splitChars '.' ('.' :: d :: ds) = [] :: (d :: part) :: parts := by
          rw [splitChars, hsplit]
          rfl
        rw [hdot, tail_cons, forall_mem_cons]
        rw [hsplit] at ih
        exact ⟨cons_ne_nil d part, ih hw.2⟩
    · obtain ⟨part, parts, hsplit, hwhole⟩ := Text.splitChars_cons hc cs
      rw [hsplit] at ih
      rw [hwhole]
      exact ih hw.2

theorem ne_nil_of_mem_splitChars (hw : isName w) : ∀ part ∈ splitChars '.' w, part ≠ [] := by
  obtain ⟨hhead, hdots⟩ := Bool.and_eq_true_iff.mp hw
  have htail := ne_nil_of_mem_tail hdots
  cases w with
  | nil => cases hhead
  | cons c cs =>
    have hc : c ≠ '.' := by
      rintro rfl
      cases hhead
    obtain ⟨part, parts, -, hsplit⟩ := Text.splitChars_cons hc cs
    rw [hsplit] at htail ⊢
    exact forall_mem_cons.mpr ⟨cons_ne_nil c part, htail⟩

theorem splitChars_append_dot (v w : List Char) :
    splitChars '.' (v ++ '.' :: w) = splitChars '.' v ++ splitChars '.' w := by
  simp only [Text.splitChars_eq_splitOn, splitOn_append_cons_self]

theorem splitChars_names (w : List Char) :
    splitChars '.' (w ++ names.flatMap ('.' :: ·)) =
      splitChars '.' w ++ names.flatMap (splitChars '.') := by
  induction names generalizing w with
  | nil => simp
  | cons name names ih =>
    rw [flatMap_cons, flatMap_cons, cons_append, splitChars_append_dot, ih]

/-- The parts of a chain between its dots, without the tag. -/
theorem parts_chars (htag : '.' ∉ tag) (hnames : ∀ name ∈ names, isName name) :
    (splitChars '.' (chars tag names)).tail.filter (!·.isEmpty) = names.flatMap (splitChars '.') := by
  have hsingle : splitChars '.' tag = [tag] := by
    rw [Text.splitChars_eq_splitOn, splitOn_eq_singleton htag]
  rw [chars, splitChars_names, hsingle, singleton_append, tail_cons, filter_eq_self]
  intro part hpart
  obtain ⟨name, hname, hmem⟩ := mem_flatMap.mp hpart
  simpa using ne_nil_of_mem_splitChars (hnames name hname) part hmem

/-- Cutting the names leaves the list as it is exactly if they have no dots. -/
theorem flatMap_splitChars_eq_iff :
    names.flatMap (splitChars '.') = names ↔ names.any (·.contains '.') = false := by
  rw [any_eq_false]
  constructor
  · intro h name hname hdot
    -- A name is a part of a name, and parts have no dots.
    rw [← h] at hname
    obtain ⟨whole, -, hpart⟩ := mem_flatMap.mp hname
    exact (Text.mem_of_mem_splitChars hpart (contains_iff_mem.mp hdot)).1 rfl
  · intro h
    induction names with
    | nil => rfl
    | cons name names ih =>
      rw [forall_mem_cons] at h
      have hdot : '.' ∉ name := fun hmem => h.1 (contains_iff_mem.mpr hmem)
      rw [flatMap_cons, Text.splitChars_eq_splitOn, splitOn_eq_singleton hdot, ih h.2]
      rfl

/-- The characters of words, numbers and dashes, and the dot. -/
def isChainChar (c : Char) : Bool := Lexeme.isStyleWordStart c || c = '.'

theorem not_isGap_of_isChainChar {c : Char} (h : isChainChar c) : isGap c = false := by
  rcases Bool.or_eq_true_iff.mp h with hstart | hdot
  · exact not_isGap_of_isStyleWordStart hstart
  · rw [of_decide_eq_true hdot]
    rfl

/-- The tokens that the line of a chain falls into outside of style blocks. -/
inductive IsPiece : TokenKind → List Char → Prop where
  | word {w : List Char} (hhead : w.head?.any isLetter = true) (hdot : '.' ∉ w) :
      IsPiece (.ofWord (String.ofList w)) w
  | number {w : List Char} (hdots : dotsInNumbers w = true) : IsPiece .number w
  | dash : IsPiece .dash ['-']
  | dot : IsPiece .dot ['.']

/-- No other token is a piece. -/
theorem IsPiece.kind_cases (h : IsPiece kind w) :
    kind = .identifier ∨ (∃ k, kind = .keyword k) ∨ kind = .number ∨ kind = .dash ∨ kind = .dot := by
  cases h with
  | word =>
    rw [TokenKind.ofWord]
    split
    · exact .inr (.inl ⟨_, rfl⟩)
    · exact .inl rfl
  | number | dash | dot => simp

theorem IsPiece.dotsInNumbers {kind : TokenKind} (h : IsPiece kind w) (hkind : kind ≠ .dot) :
    dotsInNumbers w := by
  cases h with
  | word _ hdot => exact dotsInNumbers_of_not_mem hdot
  | number hdots => exact hdots
  | dash => rfl
  | dot => exact absurd rfl hkind

theorem IsPiece.isName {kind : TokenKind} (h : IsPiece kind w) (hnumber : kind ≠ .number)
    (hdash : kind ≠ .dash) (hdot : kind ≠ .dot) : isName w := by
  have hdots := h.dotsInNumbers hdot
  cases h with
  | word hhead => rw [ClassChain.isName, hhead, hdots, Bool.and_true]
  | number | dash | dot => contradiction

theorem IsPiece.eq_dot (h : IsPiece kind w) (hkind : kind = .dot) : w = ['.'] := by
  cases h with
  | word =>
    rw [TokenKind.ofWord] at hkind
    split at hkind <;> cases hkind
  | number | dash => cases hkind
  | dot => rfl

theorem IsPiece.not_mem_of_identifier (h : IsPiece kind w) (hkind : kind = .identifier) :
    '.' ∉ w := by
  cases h with
  | word _ hdot => exact hdot
  | number | dash | dot => cases hkind

theorem IsPiece.kind_ne_newline (h : IsPiece kind w) : kind ≠ .newline := by
  rcases h.kind_cases with rfl | ⟨k, rfl⟩ | rfl | rfl | rfl <;> exact TokenKind.noConfusion

/-- The tokens that the line of a chain falls into inside of style blocks. -/
inductive InStyle : List Char → List Token → Prop where
  | nil : InStyle [] []
  | word {c : Char} {cs : List Char} {t : Token} (hc : Lexeme.isStyleWordStart c = true)
      (hkind : t.kind = .styleWord) (hliteral : t.literal.toList = c :: cs) : InStyle (c :: cs) [t]
  | dot {cs : List Char} {d : Token} {us : List Token} (hkind : d.kind = .dot)
      (hlater : InStyle cs us) : InStyle ('.' :: cs) (d :: us)

end ClassChain

/-! ## The scanner in front of a chain -/

open ClassChain

namespace Lexer

/-- The scanner stands inside a line, in front of a text and the line break after it. -/
structure Faces (l : Lexer) (mode : WordMode) (text : List Char) : Prop where
  rest : ∃ k ks, l.cursor.rest = text.map (⟨·, []⟩) ++ k :: ks ∧ k.lead = '\n'
  mode : l.mode = mode
  column : 2 ≤ l.cursor.column
  brackets : l.brackets = []

variable {l m : Lexer} {mode : WordMode} {c : Char} {cs w : List Char} {k : Cluster}
  {ks : List Cluster} {ts : List Token} {n : Token}

/-- At the end of the text there is the line break. -/
theorem Faces.scan_nil (h : l.Faces mode []) : l.scan = .ok (l.take .newline 1) := by
  obtain ⟨k, ks, hrest, hk⟩ := h.rest
  rw [scan_of_column h.column, content_of_newline hrest hk h.brackets]

/-- In front of the text there is no gap. -/
theorem Faces.scan_cons {result : Scanned} (h : l.Faces mode (c :: cs)) (hc : isChainChar c)
    (hrest : l.cursor.rest = ⟨c, []⟩ :: ks) (htakes : l.Takes ⟨c, []⟩ ks result) :
    l.scan = result := by
  rw [scan_of_column h.column,
    htakes.content_of_front hrest (by rw [lead_single]; exact not_isGap_of_isChainChar hc)]

/-- A scanner that comes to the text, from inside its line or from the start of it, scans as if it
stood in front of the text. -/
theorem Faces.scan_of_comes (h : m.Faces mode cs) (hall : ∀ c ∈ cs, isChainChar c)
    (hcomes : l.Comes m) : l.scan = m.scan := by
  refine Branches.scan_eq (.gives hcomes ?_)
  obtain ⟨k, ks, hrest, hk⟩ := h.rest
  cases cs with
  | nil =>
    rw [h.scan_nil]
    exact .newline hrest hk h.brackets
  | cons c cs =>
    have hchar : isGap (⟨c, []⟩ : Cluster).lead = false := by
      rw [lead_single]
      exact not_isGap_of_isChainChar (hall c mem_cons_self)
    have hgap : m.pastGap = m := pastGap_of_zero (by rw [hrest]; exact gap_of_not_isGap _ hchar _)
    have hgives := content_gives m
    rwa [hgap, ← scan_of_column h.column] at hgives

/-- No heading starts inside a line. -/
theorem Faces.headingMode (h : l.Faces mode cs) : l.headingMode c = mode := by
  have hcolumn := h.column
  have hne : l.cursor.column ≠ 1 := by omega
  rw [Lexer.headingMode, decide_eq_false hne, h.mode]
  rfl

theorem Faces.text_take (h : l.Faces mode (w ++ cs)) :
    Cluster.text (l.cursor.rest.take w.length) = String.ofList w := by
  obtain ⟨k, ks, hrest, -⟩ := h.rest
  have hlength : w.length = (w.map (Cluster.mk · [])).length := (length_map _).symm
  rw [hrest, map_append, append_assoc, hlength, take_left, Cluster.text_single]

/-- Where the scanner stands after a token from the front of the text. -/
theorem Faces.take (h : l.Faces mode (w ++ cs)) (hne : w ≠ [])
    (hw : ∀ c ∈ w, isChainChar c) (kind : TokenKind) :
    { (l.take kind w.length).2 with last := kind }.Faces mode cs := by
  obtain ⟨k, ks, hrest, hk⟩ := h.rest
  rw [map_append, append_assoc] at hrest
  refine ⟨⟨k, ks, ?_, hk⟩, h.mode, ?_, h.brackets⟩
  · change (l.cursor.skip w.length).rest = _
    have hlength : w.length = (w.map (Cluster.mk · [])).length := (length_map _).symm
    rw [Cursor.rest_skip, hrest, hlength, drop_left]
  · -- The last cluster of the token is no line break.
    obtain ⟨init, c, rfl, hc⟩ := exists_last_of_all hne (all_eq_true.mpr hw)
    have hline := (ne_of_not_isGap (not_isGap_of_isChainChar hc)).2.2.2.1
    rw [map_append, map_singleton, append_assoc] at hrest
    have hskip := Cursor.two_le_column_skip (by rwa [lead_single]) (Nat.le_of_succ_le h.column) hrest
    rw [length_map] at hskip
    rwa [length_append]

theorem run_faced {part : Char → Bool} (hpart : part '\n' = false) (hk : k.lead = '\n')
    (cs : List Char) :
    Lexeme.run part (cs.map (⟨·, []⟩) ++ k :: ks) = (cs.takeWhile part).length := by
  rw [Lexeme.run]
  induction cs with
  | nil => simp [hk, hpart]
  | cons c cs ih =>
    rw [map_cons, cons_append, takeWhile_cons, takeWhile_cons, lead_single]
    split
    · rw [length_cons, length_cons, ih]
    · rfl

/-- The line break after the text is no digit. -/
theorem head?_faced (hk : k.lead = '\n') (cs : List Char) :
    (cs.map (Cluster.mk · []) ++ k :: ks).head?.any (isDigit ·.first) = cs.head?.any isDigit := by
  cases cs with
  | cons c cs => rfl
  | nil =>
    rw [map_nil, nil_append, head?_cons, Option.any_some, head?_nil,
      Option.any_none, Bool.eq_false_iff]
    intro hdigit
    have hfirst : k.lead = k.first := Cluster.lead_of_first fun hreturn => by
      rw [hreturn] at hdigit
      cases hdigit
    rw [← hfirst, hk] at hdigit
    cases hdigit

/-- A number stops before the line break, and its dots stand in front of digits of its own. -/
theorem number_faced (hk : k.lead = '\n') (cs : List Char) :
    ∃ w rest, cs = w ++ rest ∧ Lexeme.number (cs.map (⟨·, []⟩) ++ k :: ks) = w.length ∧
      dotsInNumbers w ∧ (cs.head?.any isDigit → w.head?.any isDigit) := by
  induction cs with
  | nil =>
    refine ⟨[], [], rfl, ?_, rfl, id⟩
    rw [map_nil, nil_append, Lexeme.number, hk]
    rfl
  | cons c cs ih =>
    obtain ⟨w, rest, hcs, hlength, hdots, hhead⟩ := ih
    rw [map_cons, cons_append, Lexeme.number, lead_single, head?_faced hk]
    split
    · next hc =>
      refine ⟨c :: w, rest, by rw [hcs, cons_append],
        by rw [hlength, length_cons, Nat.add_comm], ?_, id⟩
      rw [dotsInNumbers, hdots, Bool.and_true]
      by_cases hdot : c = '.'
      · subst hdot
        have hdigit : cs.head?.any isDigit := by simpa [isDigit] using hc
        rw [hhead hdigit, Bool.or_true]
      · rw [decide_eq_true hdot, Bool.true_or]
    · next hc =>
      refine ⟨[], c :: cs, rfl, rfl, rfl, fun hdigit => absurd ?_ hc⟩
      rw [head?_cons, Option.any_some] at hdigit
      rw [hdigit, Bool.true_or, Bool.true_or]

/-- The next token takes a piece of a chain from the front of the text. -/
def TakesPiece (l : Lexer) (text : List Char) : Prop :=
  ∃ kind w rest, text = w ++ rest ∧ w ≠ [] ∧ IsPiece kind w ∧ l.scan = .ok (l.take kind w.length)

theorem Faces.takesPiece_word (h : l.Faces .plain (c :: cs)) (hletter : isLetter c) :
    l.TakesPiece (c :: cs) := by
  obtain ⟨k, ks, hrest, hk⟩ := h.rest
  have hrun : Lexeme.run Lexeme.isNamePart l.cursor.rest =
      ((c :: cs).takeWhile Lexeme.isNamePart).length := by
    rw [hrest, run_faced (by decide) hk (c :: cs)]
  have hpart : Lexeme.isNamePart c := by rw [Lexeme.isNamePart, hletter, Bool.true_or]
  have hfront : (c :: cs).takeWhile Lexeme.isNamePart = c :: cs.takeWhile Lexeme.isNamePart :=
    takeWhile_cons_of_pos hpart
  have hdot : '.' ∉ (c :: cs).takeWhile Lexeme.isNamePart := fun hmem =>
    absurd (mem_takeWhile_imp hmem) (by decide)
  have hcut := (takeWhile_append_dropWhile (p := Lexeme.isNamePart) (l := c :: cs)).symm
  have hchain : isChainChar c := by
    rw [isChainChar, Lexeme.isStyleWordStart_of_isLetter hletter, Bool.true_or]
  have hscan := h.scan_cons hchain hrest (.word (by rwa [lead_single]) h.headingMode)
  have hcolumn := h.column
  have hne : l.cursor.column ≠ 1 := by omega
  have hmode : l = { l with mode := .plain } := by rw [← h.mode]
  rw [← hmode] at hscan
  generalize (c :: cs).takeWhile Lexeme.isNamePart = w at hrun hfront hdot hcut
  rw [hcut] at h
  refine ⟨.ofWord (String.ofList w), w, _, hcut, ?_, .word ?_ hdot, ?_⟩
  · rw [hfront]
    exact cons_ne_nil c _
  · rw [hfront]
    exact hletter
  · rw [hscan, word, hrun, h.text_take, decide_eq_false hne, Bool.and_false]
    rfl

theorem Faces.takesPiece_number (h : l.Faces .plain (c :: cs)) (hdigit : isDigit c) :
    l.TakesPiece (c :: cs) := by
  obtain ⟨k, ks, hrest, hk⟩ := h.rest
  obtain ⟨w, rest, hcs, hlength, hdots, hhead⟩ := @number_faced k ks hk (c :: cs)
  have hchain : isChainChar c := by
    rw [isChainChar, Lexeme.isStyleWordStart_of_isDigit hdigit, Bool.true_or]
  have hscan := h.scan_cons hchain hrest (.number (by rwa [lead_single]) h.mode)
  rw [hrest, hlength] at hscan
  refine ⟨.number, w, rest, hcs, ?_, .number hdots, hscan⟩
  rintro rfl
  exact Bool.false_ne_true (hhead hdigit)

/-- Outside of style blocks the next token is a word, a number, a dash or a dot. -/
theorem Faces.takesPiece (h : l.Faces .plain (c :: cs))
    (hall : ∀ d ∈ c :: cs, isChainChar d) : l.TakesPiece (c :: cs) := by
  have hc := hall c mem_cons_self
  by_cases hletter : isLetter c
  · exact h.takesPiece_word hletter
  by_cases hdigit : isDigit c
  · exact h.takesPiece_number hdigit
  obtain ⟨k, ks, hrest, hk⟩ := h.rest
  have hsign : c = '-' ∨ c = '.' := by
    simpa [isChainChar, Lexeme.isStyleWordStart, hletter, hdigit] using hc
  rcases hsign with rfl | rfl
  · -- No arrow: what follows the dash is a character of the chain or the line break.
    have harrow : (cs.map (Cluster.mk · []) ++ k :: ks).head?.map (·.first) ≠ some '>' := by
      cases cs with
      | nil =>
        intro hfirst
        have hgreater : k.first = '>' := Option.some.inj hfirst
        have hlead : k.lead = k.first := Cluster.lead_of_first (by rw [hgreater]; decide)
        rw [hk, hgreater] at hlead
        cases hlead
      | cons d ds =>
        intro hfirst
        have hgreater : d = '>' := Option.some.inj hfirst
        have hd := hall d (by simp)
        rw [hgreater] at hd
        cases hd
    exact ⟨.dash, ['-'], cs, rfl, cons_ne_nil _ _, .dash,
      h.scan_cons hc hrest (.sign (fun _ => h.mode) (if_neg harrow))⟩
  · exact ⟨.dot, ['.'], cs, rfl, cons_ne_nil _ _, .dot,
      h.scan_cons hc hrest (.sign (fun _ => h.mode) rfl)⟩

/-- A token that does not end the line is followed by the others of the line. -/
theorem Trace.of_take {kind : TokenKind} {length : Nat} (htrace : l.Trace (ts ++ [n]) m)
    (hn : n.kind = .newline) (hscan : l.scan = .ok (l.take kind length)) (hkind : kind ≠ .newline) :
    ∃ later, ts = (l.take kind length).1 :: later ∧
      { (l.take kind length).2 with last := kind }.Trace (later ++ [n]) m := by
  cases ts with
  | nil =>
    cases htrace with
    | step _ hnext =>
      rw [hscan] at hnext
      cases hnext
      exact absurd hn hkind
  | cons t ts =>
    cases htrace with
    | step _ hnext _ hlater =>
      rw [hscan] at hnext
      cases hnext
      exact ⟨ts, rfl, hlater⟩

/-- Where the text ends, the line does. -/
theorem Faces.tokens_nil (h : l.Faces mode []) (htrace : l.Trace (ts ++ [n]) m)
    (hts : ∀ t ∈ ts, t.kind ≠ .newline) : ts = [] := by
  cases ts with
  | nil => rfl
  | cons t ts =>
    cases htrace with
    | step _ hnext =>
      rw [h.scan_nil] at hnext
      cases hnext
      exact absurd rfl (hts _ mem_cons_self)

/-- The tokens of the line are the pieces of the text. -/
theorem Faces.pieces (h : l.Faces .plain cs) (hall : ∀ c ∈ cs, isChainChar c)
    (htrace : l.Trace (ts ++ [n]) m) (hts : ∀ t ∈ ts, t.kind ≠ .newline) (hn : n.kind = .newline) :
    (∀ t ∈ ts, IsPiece t.kind t.literal.toList) ∧ ts.flatMap (·.literal.toList) = cs := by
  induction ts generalizing l cs with
  | nil =>
    cases cs with
    | nil => simp
    | cons c cs =>
      obtain ⟨kind, w, rest, -, -, hpiece, hscan⟩ := h.takesPiece hall
      obtain ⟨later, hcons, -⟩ := htrace.of_take hn hscan hpiece.kind_ne_newline
      cases hcons
  | cons t ts ih =>
    cases cs with
    | nil => exact absurd (h.tokens_nil htrace hts) (cons_ne_nil t ts)
    | cons c cs =>
      obtain ⟨kind, w, rest, hcs, hne, hpiece, hscan⟩ := h.takesPiece hall
      obtain ⟨later, hcons, hlater⟩ := htrace.of_take hn hscan hpiece.kind_ne_newline
      cases hcons
      rw [hcs] at h hall ⊢
      rw [forall_mem_append] at hall
      obtain ⟨hpieces, htext⟩ := ih (h.take hne hall.1 kind) hall.2 hlater
        (forall_mem_cons.mp hts).2
      rw [forall_mem_cons, flatMap_cons, htext, Lexer.take, h.text_take, token,
        String.toList_ofList]
      exact ⟨⟨hpiece, hpieces⟩, rfl⟩

theorem Faces.scan_styleWord (h : l.Faces .style (c :: cs))
    (hall : ∀ d ∈ c :: cs, isChainChar d) (hc : Lexeme.isStyleWordStart c) :
    l.scan = .ok (l.take .styleWord (c :: cs).length) := by
  obtain ⟨k, ks, hrest, hk⟩ := h.rest
  have hparts : ∀ d ∈ c :: cs, Lexeme.isStyleWordPart d := by
    intro d hd
    rcases Bool.or_eq_true_iff.mp (hall d hd) with hstart | hdot
    · rw [Lexeme.isStyleWordPart, hstart, Bool.true_or, Bool.true_or]
    · rw [of_decide_eq_true hdot]
      rfl
  rw [h.scan_cons (hall c mem_cons_self) hrest
    (.styleWord (by rwa [lead_single]) h.headingMode), hrest, run_faced (by decide) hk,
    takeWhile_eq_self_iff.mpr hparts]

/-- The tokens of the line are dots and one word. -/
theorem Faces.inStyle {us : List Token} (h : l.Faces .style cs)
    (hall : ∀ c ∈ cs, isChainChar c) (htrace : l.Trace (us ++ [n]) m)
    (hus : ∀ u ∈ us, u.kind ≠ .newline) (hn : n.kind = .newline) : InStyle cs us := by
  induction cs generalizing l us with
  | nil =>
    rw [h.tokens_nil htrace hus]
    exact .nil
  | cons c cs ih =>
    by_cases hc : Lexeme.isStyleWordStart c
    · have hscan := h.scan_styleWord hall hc
      obtain ⟨later, rfl, hlater⟩ := htrace.of_take hn hscan TokenKind.noConfusion
      rw [← append_nil (c :: cs)] at h
      have hend := (h.take (cons_ne_nil c cs) hall .styleWord).tokens_nil hlater
        (forall_mem_cons.mp hus).2
      rw [hend]
      refine .word hc rfl ?_
      rw [Lexer.take, h.text_take, token, String.toList_ofList]
    · have hdot : c = '.' := by simpa [isChainChar, hc] using hall c mem_cons_self
      subst hdot
      obtain ⟨k, ks, hrest, -⟩ := h.rest
      have hscan : l.scan = .ok (l.take .dot ['.'].length) :=
        h.scan_cons (hall _ mem_cons_self) hrest (.sign (fun hstart => by cases hstart) rfl)
      obtain ⟨later, rfl, hlater⟩ := htrace.of_take hn hscan TokenKind.noConfusion
      rw [forall_mem_cons] at hall hus
      rw [← singleton_append] at h
      have hnext := h.take (cons_ne_nil _ _) (forall_mem_singleton.mpr hall.1) .dot
      exact .dot rfl (ih hnext hall.2 hlater hus.2)

end Lexer
end Stencil
