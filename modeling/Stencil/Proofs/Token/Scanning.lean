import Mathlib.Data.List.Basic
import Stencil.Proofs.Script.Lexemes
import Stencil.Proofs.Text.Cuts
import Stencil.Proofs.Token.Trace

/-!
# Scanning tokens

Each kind of token is scanned in front of any rest that does not go on in the same word or number.
Words, numbers and signs are of ASCII characters; strings are of any. The scanner is inside a line or
at the start of one.
-/
namespace Stencil

open Text (Cluster BreakClass BreakContext isApart isDigit isLetter isPlain)
open Text.Cluster (lead_single ofChars ofChars_ascii ofChars_cons ofChars_front ofChars_plain
  takeWhile_ofChars)
open List Lexeme

/-- What matters of a token apart from its place. -/
abbrev Mark := TokenKind × String

def Token.mark (t : Token) : Mark := (t.kind, t.literal)

/-- What stands on a line: a token with its text, or a blank. -/
inductive Written where
  | mark (kind : TokenKind) (text : String)
  | blank

namespace Written

def chars : Written → List Char
  | .mark _ text => text.toList
  | .blank => [' ']

def mark? : Written → Option Mark
  | .mark kind text => some (kind, text)
  | .blank => none

def line (ws : List Written) : List Char := ws.flatMap chars

def marks (ws : List Written) : List Mark := ws.filterMap mark?

def opening (b : Bracket) : Written := .mark (.opening b) b.opening.toString

def closing (b : Bracket) : Written := .mark (.closing b) b.closing.toString

def word (k : Keyword) : Written := .mark (.keyword k) k.text

/-- Between two items. -/
def comma : List Written := [.mark .comma ",", .blank]

def enclose (b : Bracket) (ws : List Written) : List Written := opening b :: ws ++ [closing b]

def encloseIf (needed : Bool) (ws : List Written) : List Written :=
  if needed then enclose .paren ws else ws

end Written

namespace Literal

def escape (c : Char) : List Char :=
  if c = '\n' then ['\\', 'n']
  else if c = '\r' then ['\\', 'r']
  else if c = '\t' then ['\\', 't']
  else if c = '"' || c = '\\' then ['\\', c]
  else [c]

/-- The literal that stands for a text. -/
def quote (text : List Char) : String := String.ofList ('"' :: text.flatMap escape ++ ['"'])

end Literal

/-- A word of ASCII letters, digits and underscores that does not start with a digit. -/
def isWordText (word : String) : Bool :=
  match word.toList with
  | [] => false
  | c :: cs => Text.isLetter c && cs.all Lexeme.isNamePart

def isAsciiText (text : String) : Bool := text.toList.all (·.toNat < 0x80)

variable {c d quote : Char} {cs rest : List Char} {w digits : String}

namespace Cursor

variable {c : Cursor}

theorem one_le_column_skip (n : Nat) (h : 1 ≤ c.column) : 1 ≤ (c.skip n).column := by
  induction n generalizing c with
  | zero => exact h
  | succ n ih =>
    refine ih ?_
    obtain ⟨rest, line, column, offset⟩ := c
    cases rest with
    | nil => exact h
    | cons k ks =>
      rw [step]
      split
      · exact Nat.le_refl 1
      · exact Nat.le_add_left 1 column

/-- After a cluster that is no line break the cursor is inside a line. -/
theorem two_le_column_skip {init rest : List Cluster} {k : Cluster} (hk : k.lead ≠ '\n')
    (hcolumn : 1 ≤ c.column) (hrest : c.rest = init ++ k :: rest) :
    2 ≤ (c.skip (init.length + 1)).column := by
  have hlast : (c.skip init.length).rest = k :: rest := by
    rw [rest_skip, hrest, drop_left]
  have hbefore := one_le_column_skip init.length hcolumn
  rw [skip_add]
  generalize c.skip init.length = d at hlast hbefore
  obtain ⟨ks, line, column, offset⟩ := d
  cases hlast
  rw [skip, step, if_neg hk]
  exact Nat.succ_le_succ hbefore

end Cursor

/-! ## Characters -/

/-- Characters between tokens, and those that end a line. -/
def isGap (c : Char) : Bool := c = ' ' || c = '\t' || c = '\r' || c = '\n' || c = '#'

theorem ne_of_not_isGap (hc : isGap c = false) :
    c ≠ ' ' ∧ c ≠ '\t' ∧ c ≠ '\r' ∧ c ≠ '\n' ∧ c ≠ '#' := by
  simp only [isGap, Bool.or_eq_false_iff, decide_eq_false_iff_not] at hc
  obtain ⟨⟨⟨⟨hspace, htab⟩, hreturn⟩, hline⟩, hcomment⟩ := hc
  exact ⟨hspace, htab, hreturn, hline, hcomment⟩

/-- A printable character that stands in no gap. -/
def isSolid (c : Char) : Bool := isPlain c && !isGap c

theorem isSolid_iff : isSolid c ↔ isPlain c ∧ isGap c = false := by
  rw [isSolid, Bool.and_eq_true, Bool.not_eq_true']

theorem isApart_of_isSolid (h : isSolid c) : isApart c :=
  Text.isApart_of_isPlain (isSolid_iff.mp h).1

theorem not_isBlank_of_isSolid (h : isSolid c) : Text.isBlank c = false := by
  obtain ⟨hplain, hgap⟩ := isSolid_iff.mp h
  obtain ⟨hlow, hhigh⟩ := Text.isPlain_iff.mp hplain
  have hspace : c.toNat ≠ 0x20 := fun heq => (ne_of_not_isGap hgap).1 (Char.toNat_inj.mp heq)
  rw [Text.isBlank, Text.Runs.covers, Text.blanks, Text.Runs.holds, if_neg (by omega),
    Text.Runs.holds, if_neg (by omega), Text.Runs.holds, if_neg (by omega), Text.Runs.holds,
    if_neg (by omega), Text.Runs.holds, if_pos (by omega)]
  rfl

theorem isNamePart_bounds (h : isNamePart c) : 0x30 ≤ c.toNat ∧ c.toNat < 0x7b := by
  simp only [isNamePart, isLetter, isDigit, Bool.or_eq_true, Bool.and_eq_true,
    decide_eq_true_eq, beq_iff_eq, Char.le_def, UInt32.le_iff_toNat_le] at h
  rcases h with ((h | h) | rfl) | h
  · exact ⟨Nat.le_trans (by decide) h.1, Nat.lt_of_le_of_lt h.2 (by decide)⟩
  · exact ⟨Nat.le_trans (by decide) h.1, Nat.lt_of_le_of_lt h.2 (by decide)⟩
  · decide
  · exact ⟨Nat.le_trans (by decide) h.1, Nat.lt_of_le_of_lt h.2 (by decide)⟩

theorem ne_of_isNamePart (hc : isNamePart c) (hd : isNamePart d = false) : c ≠ d := by
  rintro rfl
  rw [hc] at hd
  cases hd

theorem isSolid_of_isNamePart (h : isNamePart c) : isSolid c := by
  obtain ⟨hlow, hhigh⟩ := isNamePart_bounds h
  have hne (d : Char) (hd : isNamePart d = false) : c ≠ d := ne_of_isNamePart h hd
  refine isSolid_iff.mpr ⟨Text.isPlain_iff.mpr (by omega), ?_⟩
  simp [isGap, hne ' ' rfl, hne '\t' rfl, hne '\r' rfl, hne '\n' rfl, hne '#' rfl]

theorem isApart_of_isLetter (h : isLetter c) : isApart c :=
  isApart_of_isSolid (isSolid_of_isNamePart (by rw [isNamePart, h]; rfl))

/-! ## Lengths of words and numbers -/

/-- No word and no number goes on here, and nothing joins to what stands before it. -/
def isClear : List Char → Bool
  | [] => true
  | '.' :: c :: _ => !isDigit c && isApart c
  | c :: _ => !isNamePart c && isApart c

/-- A number does not go on here: with neither a digit nor an underscore, nor a dot and a digit. -/
def endsNumber : List Char → Bool
  | [] => true
  | '.' :: c :: _ => !isDigit c && isApart c
  | c :: _ => !isDigit c && c ≠ '_' && isApart c

theorem isClear_front (h : isClear cs) : ∀ c ∈ cs.head?, isApart c ∧ isNamePart c = false := by
  cases cs with
  | nil => exact fun c hc => absurd hc (Option.not_mem_none c)
  | cons c cs =>
    rintro _ ⟨⟩
    by_cases hdot : c = '.'
    · subst hdot
      decide
    · rw [isClear.eq_3 _ _ fun _ _ heq => absurd heq hdot, Bool.and_eq_true, Bool.not_eq_true'] at h
      exact h.symm

theorem endsNumber_of_isClear (h : isClear cs) : endsNumber cs := by
  cases cs with
  | nil => rfl
  | cons c cs =>
    by_cases hdot : c = '.'
    · subst hdot
      cases cs with
      | nil => rfl
      | cons d cs => exact h
    · obtain ⟨hapart, hpart⟩ := isClear_front h c rfl
      have hdigit : isDigit c = false := (Bool.or_eq_false_iff.mp hpart).2
      have hscore : c ≠ '_' := by
        rintro rfl
        cases hpart
      simp [endsNumber, hdot, hdigit, hscore, hapart]

theorem endsNumber_front (h : endsNumber cs) : ∀ c ∈ cs.head?, isApart c := by
  cases cs with
  | nil => exact fun c hc => absurd hc (Option.not_mem_none c)
  | cons c cs =>
    rintro _ ⟨⟩
    by_cases hdot : c = '.'
    · subst hdot
      decide
    · rw [endsNumber.eq_3 _ _ fun _ _ heq => absurd heq hdot, Bool.and_eq_true] at h
      exact h.2

/-- A word reaches to the first character that is no part of it. -/
theorem run_plain {part : Char → Bool} {w : List Char} (hw : ∀ c ∈ w, isPlain c)
    (hparts : ∀ c ∈ w, part c) (hrest : ∀ c ∈ rest.head?, isApart c ∧ part c = false) :
    Lexeme.run part (ofChars (w ++ rest)) = w.length := by
  have hapart : ∀ c ∈ rest.head?, isApart c := fun c hc => (hrest c hc).1
  rw [ofChars_plain hw hapart, Lexeme.run, takeWhile_append_of_pos,
    takeWhile_ofChars hapart fun c hc => (hrest c hc).2, append_nil, length_map]
  intro k hk
  obtain ⟨c, hc, rfl⟩ := mem_map.mp hk
  rw [lead_single, hparts c hc]

theorem number_stop (h : endsNumber rest) : Lexeme.number (ofChars rest) = 0 := by
  cases rest with
  | nil => rfl
  | cons c rest =>
    have hc := endsNumber_front h c rfl
    by_cases hdot : c = '.'
    · subst hdot
      cases rest with
      | nil => rfl
      | cons d rest =>
        rw [endsNumber, Bool.and_eq_true, Bool.not_eq_true'] at h
        obtain ⟨k, ks, hks, hfirst, -⟩ := ofChars_front h.2 rest
        rw [ofChars_cons (by decide) (by rintro _ ⟨⟩; exact h.2), Lexeme.number, lead_single, hks,
          head?_cons, Option.any_some, hfirst, h.1]
        rfl
    · have hstop : isDigit c = false ∧ c ≠ '_' := by
        rw [endsNumber.eq_3 _ _ fun _ _ heq => absurd heq hdot] at h
        simpa using (Bool.and_eq_true_iff.mp h).1
      obtain ⟨k, ks, hks, -, hlead⟩ := ofChars_front hc rest
      rw [hks, Lexeme.number]
      simp [hlead, hstop, hdot]

/-- A number reaches to the first character that does not go on with it. -/
theorem number_plain {digits : List Char} (h : Script.isNumeralRest digits)
    (hrest : endsNumber rest) :
    Lexeme.number (digits.map (⟨·, []⟩) ++ ofChars rest) = digits.length := by
  induction digits using Script.isNumeralRest.induct with
  | case1 => exact number_stop hrest
  | case2 c s ih =>
    obtain ⟨hc, hs⟩ := Bool.and_eq_true_iff.mp h
    have hlast := ih hs
    rw [map_cons, map_cons, cons_append, cons_append, Lexeme.number, Lexeme.number]
    simp only [lead_single, hc, hlast, head?_cons, Option.any_some, length_cons]
    simp
    omega
  | case3 c s hdot ih =>
    rw [Script.isNumeralRest] at h
    · obtain ⟨hc, hs⟩ := Bool.and_eq_true_iff.mp h
      have hpart : (isDigit c || decide (c = '_')) := by simpa using hc
      rw [map_cons, cons_append, Lexeme.number, lead_single, hpart, Bool.true_or, if_pos rfl, ih hs,
        length_cons, Nat.add_comm]
    · exact hdot

/-! ## Strings -/

/-- A text that is scanned as one string. -/
def isStringText (text : String) : Bool :=
  (Cluster.segment text).head?.any fun k => (k.lead = '"' || k.lead = '\'') &&
    stringRest k.lead (Cluster.segment text).tail = some (Cluster.segment text).tail.length

theorem isStringText_iff {text : String} : isStringText text ↔
    ∃ k ks, Cluster.segment text = k :: ks ∧ (k.lead = '"' ∨ k.lead = '\'') ∧
      stringRest k.lead ks = some ks.length := by
  rw [isStringText]
  cases Cluster.segment text with
  | nil => simp
  | cons k ks =>
    rw [head?_cons, Option.any_some, tail_cons, Bool.and_eq_true, Bool.or_eq_true,
      decide_eq_true_iff, decide_eq_true_iff, decide_eq_true_iff]
    constructor
    · exact fun h => ⟨k, ks, rfl, h⟩
    · rintro ⟨_, _, ⟨⟩, h⟩
      exact h

theorem isStringText_front {text : String} (h : isStringText text) :
    ∃ c cs, text.toList = c :: cs ∧ (c = '"' ∨ c = '\'') := by
  obtain ⟨k, ks, hks, hquote, -⟩ := isStringText_iff.mp h
  have hfeed : k.lead ≠ '\n' := by
    rcases hquote with h | h <;> rw [h] <;> decide
  rw [Cluster.lead_eq_first hfeed] at hquote
  refine ⟨k.first, k.joined ++ ks.flatMap Cluster.chars, ?_, hquote⟩
  rw [← Cluster.chars_segmentFrom .other text.toList]
  change (Cluster.segment text).flatMap Cluster.chars = _
  rw [hks]
  rfl

/-- A string ends with the quote that it starts with. -/
theorem exists_last_of_stringRest {ks : List Cluster} (h : stringRest quote ks = some ks.length) :
    ∃ init k, ks = init ++ [k] ∧ k.lead = quote := by
  have hends := EndsString.of_stringRest h
  clear h
  induction hends with
  | @mark k hk => exact ⟨[], k, rfl, hk⟩
  | @escape k j _ _ _ _ ih =>
    obtain ⟨init, last, rfl, hlast⟩ := ih
    exact ⟨k :: j :: init, last, rfl, hlast⟩
  | @other k _ _ _ _ ih =>
    obtain ⟨init, last, rfl, hlast⟩ := ih
    exact ⟨k :: init, last, rfl, hlast⟩

/-- Nothing but a mark joins to what ends in such a cluster. -/
theorem after_of_last {init : List Cluster} {k : Cluster} (h : ofChars cs = init ++ [k])
    (hk : isPlain k.first) : BreakContext.after .other cs = .other := by
  have hsegmented := Cluster.isSegmented_segmentFrom .other cs
  have hplain := Cluster.isPlain_of_mem hsegmented (k := k) (by
    change k ∈ ofChars cs
    rw [h]
    exact mem_append_right _ mem_cons_self) hk
  have hchars : cs = init.flatMap Cluster.chars ++ (k.first :: k.joined) := by
    rw [← Cluster.chars_segmentFrom .other cs]
    change (ofChars cs).flatMap Cluster.chars = _
    rw [h, flatMap_append, flatMap_singleton]
    rfl
  rw [hchars, BreakContext.after_append, BreakContext.after_cons, BreakClass.of_isPlain hk,
    BreakContext.next_other]
  exact (BreakContext.holds_other hplain.holds).2

/-- The text after an opening quote ends with the quote that closes it: there is no other one that
is not escaped. -/
def isClosed (quote : Char) : List Char → Bool
  | [] => false
  | [c] => c = quote
  | '\\' :: _ :: cs => isClosed quote cs
  | c :: cs => c ≠ quote && isClosed quote cs

theorem exists_quote_last (h : isClosed quote cs) : ∃ ds, cs = ds ++ [quote] := by
  induction cs using isClosed.induct with
  | case1 => cases h
  | case2 c => exact ⟨[], by rw [of_decide_eq_true h]; rfl⟩
  | case3 d cs ih =>
    obtain ⟨ds, hds⟩ := ih h
    exact ⟨'\\' :: d :: ds, by rw [hds]; rfl⟩
  | case4 c cs hlast hescape ih =>
    rw [isClosed.eq_4 _ _ _ hlast hescape, Bool.and_eq_true] at h
    obtain ⟨ds, hds⟩ := ih h.2
    exact ⟨c :: ds, by rw [hds]; rfl⟩

/-- The first cluster of an ASCII text may be a line break of two characters, but the rest of a string
is found after it all the same. -/
theorem endsString_front (hquote : quote ≠ '\n') (hc : c.toNat < 0x80)
    (hcs : ∀ d ∈ cs.head?, d.toNat < 0x80) (h : EndsString quote (ofChars cs)) :
    ∃ k ks, ofChars (c :: cs) = k :: ks ∧ EndsString quote ks ∧ (k.lead = c ∨ k.lead = '\n') := by
  rcases ofChars_ascii hc hcs with hsingle | ⟨ds, rfl, rfl, hbreak⟩
  · exact ⟨_, _, hsingle, h, .inl (lead_single c)⟩
  · refine ⟨_, _, hbreak, ?_, .inr rfl⟩
    rw [Cluster.ofChars_lineFeed] at h
    generalize ofChars ds = ks at h ⊢
    cases h with
    | mark hk => exact absurd hk.symm hquote
    | escape _ hslash _ => cases hslash
    | other _ _ hlater => exact hlater

theorem endsString_ascii (hquote : quote = '"' ∨ quote = '\'') (h : isClosed quote cs)
    (hascii : ∀ c ∈ cs, c.toNat < 0x80) : EndsString quote (ofChars cs) := by
  have hfeed : quote ≠ '\n' := by
    rcases hquote with rfl | rfl <;> decide
  have hslash : '\\' ≠ quote := by
    rcases hquote with rfl | rfl <;> decide
  have hhead {cs : List Char} (hcs : ∀ c ∈ cs, c.toNat < 0x80) : ∀ d ∈ cs.head?, d.toNat < 0x80 :=
    fun d hd => hcs d (mem_of_mem_head? hd)
  induction cs using isClosed.induct with
  | case1 => cases h
  | case2 c => exact .mark ((lead_single c).trans (of_decide_eq_true h))
  | case3 d cs ih =>
    simp only [forall_mem_cons] at hascii
    obtain ⟨-, hd, hcs⟩ := hascii
    obtain ⟨k, ks, hks, hends, -⟩ := endsString_front hfeed hd (hhead hcs) (ih h hcs)
    have hfront : ofChars ('\\' :: d :: cs) = ⟨'\\', []⟩ :: ofChars (d :: cs) := by
      refine (ofChars_ascii (by decide) (by rintro _ ⟨⟩; exact hd)).resolve_right ?_
      rintro ⟨_, hreturn, -⟩
      cases hreturn
    rw [hfront, hks]
    exact .escape (by rwa [lead_single]) (lead_single _) hends
  | case4 c cs hlast hescape ih =>
    rw [isClosed.eq_4 _ _ _ hlast hescape, Bool.and_eq_true] at h
    obtain ⟨hlow, hcs⟩ := forall_mem_cons.mp hascii
    have hc : c ≠ quote := of_decide_eq_true h.1
    have hslash' : c ≠ '\\' := by
      rintro rfl
      cases cs with
      | nil => exact hlast rfl
      | cons d cs => exact hescape d cs rfl rfl
    obtain ⟨k, ks, hks, hends, hlead⟩ := endsString_front hfeed hlow (hhead hcs) (ih h.2 hcs)
    rw [hks]
    rcases hlead with hlead | hlead
    · exact .other (by rwa [hlead]) (by rwa [hlead]) hends
    · exact .other (by rwa [hlead, ne_comm]) (by rw [hlead]; decide) hends

/-- An ASCII text in quotes is one string if no other quote in it is left alone. -/
theorem isStringText_ascii (hquote : quote = '"' ∨ quote = '\'') (h : isClosed quote cs)
    (hascii : ∀ c ∈ cs, c.toNat < 0x80) : isStringText (String.ofList (quote :: cs)) := by
  have hplain : isPlain quote := by
    rcases hquote with rfl | rfl <;> decide
  have hfront : ofChars (quote :: cs) = ⟨quote, []⟩ :: ofChars cs := by
    refine (ofChars_ascii ?_ fun d hd => hascii d (mem_of_mem_head? hd)).resolve_right ?_
    · exact Nat.lt_trans (Text.isPlain_iff.mp hplain).2 (by decide)
    · rintro ⟨_, rfl, -⟩
      cases hplain
  have hends := (endsString_ascii hquote h hascii).stringRest []
  rw [append_nil] at hends
  rw [isStringText_iff, Cluster.segment_ofList, hfront]
  exact ⟨_, _, rfl, by rwa [lead_single], by rwa [lead_single]⟩

/-! ## Words, numbers and literals -/

theorem isWordText_cases (h : isWordText w) :
    ∃ c cs, w.toList = c :: cs ∧ isLetter c ∧ cs.all isNamePart := by
  rw [isWordText] at h
  split at h
  · cases h
  · next c cs hcs =>
    obtain ⟨hc, hall⟩ := Bool.and_eq_true_iff.mp h
    exact ⟨c, cs, hcs, hc, hall⟩

theorem isNumeral_front (h : Script.isNumeral digits) :
    ∃ c cs, digits.toList = c :: cs ∧ isDigit c ∧ Script.isNumeralRest cs := by
  rw [Script.isNumeral] at h
  split at h
  · cases h
  · next c cs hcs =>
    obtain ⟨hc, hrest⟩ := Bool.and_eq_true_iff.mp h
    exact ⟨c, cs, hcs, hc, hrest⟩

theorem all_isNamePart (h : isWordText w) : w.toList.all isNamePart := by
  obtain ⟨c, cs, hcs, hc, hall⟩ := isWordText_cases h
  rw [hcs, all_cons, hall, isNamePart, hc]
  rfl

/-- A number is made of digits, underscores and dots. -/
theorem all_of_isNumeral {p : Char → Bool} (hpart : ∀ {c}, isNamePart c → p c)
    (hdot : p '.') (h : Script.isNumeral digits) : digits.toList.all p := by
  have hdigit {c : Char} (hc : isDigit c) : p c :=
    hpart (by rw [Lexeme.isNamePart, hc, Bool.or_true])
  have hlater {cs : List Char} (hcs : Script.isNumeralRest cs) : cs.all p := by
    induction cs using Script.isNumeralRest.induct with
    | case1 => rfl
    | case2 c s ih =>
      obtain ⟨hc, hs⟩ := Bool.and_eq_true_iff.mp hcs
      rw [all_cons, all_cons, hdot, hdigit hc, ih hs]
      rfl
    | case3 c s hne ih =>
      rw [Script.isNumeralRest] at hcs
      · obtain ⟨hc, hs⟩ := Bool.and_eq_true_iff.mp hcs
        rw [all_cons, ih hs, Bool.and_true]
        rcases Bool.or_eq_true_iff.mp hc with hc | hc
        · exact hdigit hc
        · rw [beq_iff_eq.mp hc]
          exact hpart rfl
      · exact hne
  obtain ⟨c, cs, hcs, hc, hrest⟩ := isNumeral_front h
  rw [hcs, all_cons, hdigit hc, hlater hrest]
  rfl

theorem quote_toList (text : List Char) :
    (Literal.quote text).toList = '"' :: (text.flatMap Literal.escape ++ ['"']) := by
  rw [Literal.quote, String.toList_ofList]
  rfl

/-- Either a backslash and the character after it go together, or the character is a plain one. -/
theorem escape_cases (c : Char) :
    (∃ d, Literal.escape c = ['\\', d] ∧ (d.toNat < 0x80 ∨ d = c)) ∨
      (Literal.escape c = [c] ∧ c ≠ '"' ∧ c ≠ '\\') := by
  unfold Literal.escape
  split
  · exact .inl ⟨_, rfl, .inl (by decide)⟩
  split
  · exact .inl ⟨_, rfl, .inl (by decide)⟩
  split
  · exact .inl ⟨_, rfl, .inl (by decide)⟩
  split
  · exact .inl ⟨_, rfl, .inr rfl⟩
  · next h => exact .inr ⟨rfl, by simpa using h⟩

/-- Every quote and every backslash in a quoted text is escaped. -/
theorem isClosed_quote (text : List Char) :
    isClosed '"' (text.flatMap Literal.escape ++ ['"']) := by
  induction text with
  | nil => rfl
  | cons c text ih =>
    rw [flatMap_cons, append_assoc]
    rcases escape_cases c with ⟨d, hd, _⟩ | ⟨hd, hquote, hslash⟩ <;> rw [hd]
    · exact ih
    · rw [singleton_append]
      cases hlater : text.flatMap Literal.escape ++ ['"'] with
      | nil => simp at hlater
      | cons e later =>
        rw [hlater] at ih
        simp [isClosed, hquote, hslash, ih]

/-- The literal of an ASCII text is one string. -/
theorem isStringText_quote {text : List Char} (h : text.all (·.toNat < 0x80)) :
    isStringText (Literal.quote text) := by
  have hescaped : ∀ d ∈ text.flatMap Literal.escape, d.toNat < 0x80 := by
    intro d hd
    obtain ⟨c, hc, hd⟩ := mem_flatMap.mp hd
    have hascii : c.toNat < 0x80 := of_decide_eq_true (all_eq_true.mp h c hc)
    rcases escape_cases c with ⟨e, he, hlow⟩ | ⟨he, _⟩ <;> rw [he] at hd
    · rcases mem_pair.mp hd with rfl | rfl
      · decide
      · exact hlow.elim id fun heq => heq ▸ hascii
    · rwa [mem_singleton.mp hd]
  exact isStringText_ascii (.inl rfl) (isClosed_quote text)
    (forall_mem_append.mpr ⟨hescaped, forall_mem_singleton.mpr (by decide)⟩)

/-! ## The scanner on a line -/

namespace Written

/-- The tokens of a line that starts at an offset, each with its own. -/
def stamps : Nat → List Written → List (Mark × Nat)
  | _, [] => []
  | offset, .blank :: ws => stamps (offset + 1) ws
  | offset, .mark kind text :: ws =>
    ((kind, text), offset) :: stamps (offset + Text.byteSize text.toList) ws

theorem line_single (kind : TokenKind) (text : String) : line [.mark kind text] = text.toList :=
  append_nil _

theorem line_append (xs ys : List Written) : line (xs ++ ys) = line xs ++ line ys := flatMap_append

theorem marks_append (xs ys : List Written) : marks (xs ++ ys) = marks xs ++ marks ys :=
  filterMap_append

theorem stamps_append (offset : Nat) (xs ys : List Written) :
    stamps offset (xs ++ ys) =
      stamps offset xs ++ stamps (offset + Text.byteSize (line xs)) ys := by
  induction xs generalizing offset with
  | nil => rfl
  | cons x xs ih =>
    cases x with
    | blank =>
      have hsize : Text.byteSize (line (.blank :: xs)) = 1 + Text.byteSize (line xs) := rfl
      rw [cons_append, stamps, stamps, ih, hsize, Nat.add_assoc]
    | mark kind text =>
      have hsize : Text.byteSize (line (.mark kind text :: xs)) =
          Text.byteSize text.toList + Text.byteSize (line xs) := Text.byteSize_append _ _
      rw [cons_append, stamps, stamps, ih, hsize, Nat.add_assoc, cons_append]

theorem map_fst_stamps (offset : Nat) (ws : List Written) :
    (stamps offset ws).map Prod.fst = marks ws := by
  induction ws generalizing offset with
  | nil => rfl
  | cons w ws ih =>
    cases w with
    | blank => exact ih _
    | mark kind text => exact congrArg ((kind, text) :: ·) (ih _)

end Written

def Token.stamp (t : Token) : Mark × Nat := (t.mark, t.offset)

/-- A token that does not belong to the layout of lines. -/
def TokenKind.isInline (kind : TokenKind) : Bool :=
  !([TokenKind.newline, .indent, .dedent, .eof].contains kind)

namespace Lexer

open Written (line marks stamps stamps_append line_append)

/-- The scanner stands in front of clusters: inside a line, or at the start of one with no margin.
These levels of indentation are open. -/
structure On (l : Lexer) (mode : WordMode) (levels : List Nat) (brackets : List Bracket)
    (ks : List Cluster) : Prop where
  rest : l.cursor.rest = ks
  brackets : l.brackets = brackets
  indents : l.indents = levels
  mode : l.mode = mode
  fault : l.fault = none
  start : 2 ≤ l.cursor.column ∨
    (l.cursor.column = 1 ∧ levels.headD 0 = 0 ∧ ∃ k js, ks = k :: js ∧ isGap k.lead = false)

/-- The scanner stands inside a line. -/
structure Within (l : Lexer) (mode : WordMode) (levels : List Nat) (brackets : List Bracket)
    (ks : List Cluster) : Prop where
  rest : l.cursor.rest = ks
  brackets : l.brackets = brackets
  indents : l.indents = levels
  mode : l.mode = mode
  fault : l.fault = none
  column : 2 ≤ l.cursor.column

/-- The scanner has taken a token from a line. -/
structure Beyond (l : Lexer) (mode : WordMode) (levels : List Nat) (brackets : List Bracket)
    (ks : List Cluster) : Prop extends l.Within mode levels brackets ks where
  last : l.last.isInline = true

/-- In front of a text outside of style blocks. -/
abbrev At (l : Lexer) (levels : List Nat) (brackets : List Bracket) (cs : List Char) : Prop :=
  l.On .plain levels brackets (ofChars cs)

abbrev Past (l : Lexer) (levels : List Nat) (brackets : List Bracket) (cs : List Char) : Prop :=
  l.Beyond .plain levels brackets (ofChars cs)

/-- Scanning goes through the tokens of a line that starts at the cursor, and to its end. -/
def Reaches (l : Lexer) (ws : List Written) (m : Lexer) : Prop :=
  ∃ ts, l.Trace ts m ∧ ts.map Token.stamp = stamps l.cursor.offset ws ∧
    m.cursor.offset = l.cursor.offset + Text.byteSize (line ws)

theorem Reaches.refl (l : Lexer) : l.Reaches [] l := ⟨[], .refl l, rfl, rfl⟩

theorem Reaches.trans {l m n : Lexer} {xs ys : List Written} (h : l.Reaches xs m)
    (h' : m.Reaches ys n) : l.Reaches (xs ++ ys) n := by
  obtain ⟨ts, htrace, hts, hoffset⟩ := h
  obtain ⟨us, htrace', hus, hoffset'⟩ := h'
  refine ⟨ts ++ us, htrace.trans htrace', ?_, ?_⟩
  · rw [map_append, hts, hus, hoffset, stamps_append]
  · rw [hoffset', hoffset, line_append, Text.byteSize_append, Nat.add_assoc]

section

variable {l : Lexer} {levels : List Nat} {brackets : List Bracket} {c : Char} {cs : List Char}
  {mode : WordMode} {ks : List Cluster}

theorem Within.at (h : l.Within mode levels brackets ks) : l.On mode levels brackets ks :=
  ⟨h.rest, h.brackets, h.indents, h.mode, h.fault, .inl h.column⟩

theorem On.one_le_column (h : l.On mode levels brackets ks) : 1 ≤ l.cursor.column := by
  rcases h.start with hcolumn | ⟨hcolumn, _⟩ <;> omega

theorem scan_of_column (h : 2 ≤ l.cursor.column) : l.scan = l.content :=
  scan_of_inside fun hline => by omega

end

/-! ## Margins -/

theorem length_takeWhile_spaces {k : Cluster} (hk : isGap k.lead = false) (n : Nat)
    (ks : List Cluster) :
    ((replicate n (⟨' ', []⟩ : Cluster) ++ k :: ks).takeWhile (·.lead = ' ')).length = n := by
  rw [takeWhile_append_of_pos (by simp), takeWhile_cons_of_neg
    (by simp [(ne_of_not_isGap hk).1]), append_nil, length_replicate]

/-- The scanner stands at the start of a line with a margin of spaces, where a token follows. -/
structure Margined (l : Lexer) (n : Nat) (k : Cluster) (ks : List Cluster) : Prop where
  rest : l.cursor.rest = List.replicate n ⟨' ', []⟩ ++ k :: ks
  gap : isGap k.lead = false
  column : l.cursor.column = 1
  brackets : l.brackets = []

namespace Margined

variable {l : Lexer} {n : Nat} {k : Cluster} {ks : List Cluster}

theorem blankLines_eq (h : l.Margined n k ks) : blankLines l.cursor.rest = 0 := by
  obtain ⟨hspace, _, _, hline, hcomment⟩ := ne_of_not_isGap h.gap
  have hk : k ≠ ⟨' ', []⟩ := by
    rintro rfl
    exact hspace (lead_single ' ')
  have hfrom : ∀ read, blankLinesFrom read false
      (replicate n ⟨' ', []⟩ ++ k :: ks) = 0 := by
    clear h
    rw [Cluster.lead_eq_first hline] at hcomment
    induction n with
    | zero =>
      intro read
      simp [blankLinesFrom, hk, hline, hcomment]
    | succ n ih =>
      intro read
      rw [replicate_succ, cons_append, blankLinesFrom, lead_single,
        if_neg (by decide), if_neg Bool.false_ne_true, if_pos rfl, ih]
  rw [h.rest]
  exact hfrom 0

theorem margin_eq (h : l.Margined n k ks) : margin l.cursor.rest = (n, some k.lead) := by
  obtain ⟨hspace, -, -, hline, -⟩ := ne_of_not_isGap h.gap
  rw [h.rest]
  clear h
  induction n with
  | zero =>
    rw [Cluster.lead_eq_first hline] at hspace
    simp [margin, hspace, Cluster.lead_eq_first hline]
  | succ n ih => rw [replicate_succ, cons_append, margin, if_pos rfl, ih]

theorem skipSpaces_eq (h : l.Margined n k ks) : l.cursor.skipSpaces = l.cursor.skip n := by
  rw [Cursor.skipSpaces, h.rest, length_takeWhile_spaces h.gap]

theorem rest_pastMargin (h : l.Margined n k ks) : l.pastMargin.cursor.rest = k :: ks := by
  rw [pastMargin, h.skipSpaces_eq, Cursor.rest_skip, h.rest, drop_left' length_replicate]

/-- After a margin that is not empty the scanner is inside the line. -/
theorem column_pastMargin (h : l.Margined n k ks) :
    2 ≤ l.pastMargin.cursor.column ∨ (l.pastMargin.cursor.column = 1 ∧ n = 0) := by
  rw [pastMargin, h.skipSpaces_eq]
  cases n with
  | zero => exact .inr ⟨h.column, rfl⟩
  | succ n =>
    have hfront : l.cursor.rest = replicate n ⟨' ', []⟩ ++ ⟨' ', []⟩ :: (k :: ks) := by
      rw [h.rest, replicate_succ', append_assoc]
      rfl
    have hinside := @Cursor.two_le_column_skip l.cursor _ _ ⟨' ', []⟩ (by simp)
      (Nat.le_of_eq h.column.symm) hfront
    rw [length_replicate] at hinside
    exact .inl hinside

theorem scan_layout (h : l.Margined n k ks) : l.scan = l.layout := by
  have hpast := pastBlank_of_zero h.blankLines_eq
  have hstart : l.StartsLine := ⟨h.column, h.brackets, by rw [hpast, h.rest]; simp⟩
  rw [hstart.scan_eq, hpast]

theorem not_tab (h : l.Margined n k ks) : (margin l.cursor.rest).2 ≠ some '\t' := by
  rw [h.margin_eq]
  simpa using (ne_of_not_isGap h.gap).2.1

/-- A line of the innermost level goes on after its margin. -/
theorem scan_same (h : l.Margined n k ks) (hn : n = l.indents.headD 0) :
    l.scan = l.pastMargin.content := by
  rw [h.scan_layout, layout_of_margin h.not_tab (by rw [h.margin_eq]; exact hn)]

end Margined

section

variable {l : Lexer}

/-- Inside a line there is no layout, and at the start of this one there is none either. -/
theorem scan_of_front {k : Cluster} {ks : List Cluster} (hrest : l.cursor.rest = k :: ks)
    (hk : isGap k.lead = false)
    (hstart : 2 ≤ l.cursor.column ∨ (l.cursor.column = 1 ∧ l.indents.headD 0 = 0)) :
    l.scan = l.content := by
  rcases hstart with hcolumn | ⟨hcolumn, htop⟩
  · exact scan_of_column hcolumn
  by_cases hbrackets : l.brackets = []
  · have hmargin : l.Margined 0 k ks := ⟨hrest, hk, hcolumn, hbrackets⟩
    rw [hmargin.scan_same htop.symm, pastMargin, hmargin.skipSpaces_eq]
    rfl
  · exact scan_of_inside fun hline => hbrackets hline.2

end

/-! ## Taking tokens -/

section

variable {l m : Lexer} {mode : WordMode} {levels : List Nat} {brackets : List Bracket} {k : Cluster}
  {ks : List Cluster} {kind : TokenKind}

theorem On.scan_eq (h : l.On mode levels brackets ks) : l.scan = l.content := by
  rcases h.start with hcolumn | ⟨hcolumn, htop, k, js, rfl, hk⟩
  · exact scan_of_column hcolumn
  · exact scan_of_front h.rest hk (.inr ⟨hcolumn, by rw [h.indents, htop]⟩)

/-- The token in front is the next one. -/
theorem On.trace {t : Token} (h : l.On mode levels brackets ks) (hcontent : l.content = .ok (t, m))
    (hkind : t.kind ≠ .eof) : l.Trace [t] { m with last := t.kind } :=
  .step h.fault (h.scan_eq.trans hcontent) hkind (.refl _)

theorem gap_of_not_isGap (bracketed : Bool) (hk : isGap k.lead = false) (ks : List Cluster) :
    gap bracketed (k :: ks) = 0 := by
  obtain ⟨hspace, htab, hreturn, hline, hcomment⟩ := ne_of_not_isGap hk
  simp [gap, gapFrom, hspace, htab, hreturn, hline, hcomment]

/-- Without a gap in front the cluster decides what follows. -/
theorem Takes.content_of_front {result : Scanned} (htakes : l.Takes k ks result)
    (hrest : l.cursor.rest = k :: ks) (hk : isGap k.lead = false) : l.content = result := by
  have hgap : l.pastGap = l := pastGap_of_zero (by rw [hrest, gap_of_not_isGap _ hk])
  rw [← hgap] at htakes hrest
  exact htakes.content_eq hrest (ne_of_not_isGap hk).2.2.2.1

/-- A blank in front of a token or of the end of a line makes no difference. -/
theorem On.blank (h : l.On mode levels brackets (⟨' ', []⟩ :: k :: ks))
    (hk : isGap k.lead = false ∨ k.lead = '\n' ∧ brackets = []) :
    ∃ m : Lexer, m.Within mode levels brackets (k :: ks) ∧
      m.cursor.offset = l.cursor.offset + 1 ∧ l.scan = m.scan := by
  have hcolumn : 2 ≤ l.cursor.column := by
    rcases h.start with hcolumn | ⟨_, _, j, js, heq, hj⟩
    · exact hcolumn
    · obtain rfl : ⟨' ', []⟩ = j := (cons.inj heq).1
      rw [lead_single] at hj
      cases hj
  have hrest := h.rest
  have hstep : l.cursor.step =
      ⟨k :: ks, l.cursor.line, l.cursor.column + 1, l.cursor.offset + 1⟩ := by
    generalize l.cursor = cursor at hrest
    obtain ⟨ks, line, column, offset⟩ := cursor
    cases hrest
    rfl
  have hm : Within { l with cursor := l.cursor.step } mode levels brackets (k :: ks) :=
    ⟨by rw [hstep], h.brackets, h.indents, h.mode, h.fault, by
      rw [hstep]; exact Nat.le_succ_of_le hcolumn⟩
  have hzero : gap (!l.brackets.isEmpty) (k :: ks) = 0 := by
    rcases hk with hk | ⟨hk, rfl⟩
    · exact gap_of_not_isGap _ hk ks
    · rw [h.brackets, gap, gapFrom, hk]
      rfl
  have hcontent : l.content = content { l with cursor := l.cursor.step } := by
    have hone : gap (!l.brackets.isEmpty) l.cursor.rest = 1 := by
      rw [gap] at hzero
      rw [hrest, gap, gapFrom, lead_single, if_neg (by decide),
        if_neg Bool.false_ne_true, if_pos (by decide), hzero]
    have hnone : gap (!l.brackets.isEmpty) l.cursor.step.rest = 0 := by
      rw [hstep, hzero]
    rw [content, content, hone, hnone]
    rfl
  exact ⟨_, hm, by rw [hstep], by rw [h.scan_eq, hcontent, hm.at.scan_eq]⟩

/-- The scanner goes on after the clusters of a token. -/
theorem On.taken {js init : List Cluster} (h : l.On mode levels brackets (js ++ ks))
    (hlast : js = init ++ [k]) (hfeed : k.lead ≠ '\n') (hkind : kind.isInline)
    (hcontent : l.content = .ok (l.take kind js.length)) :
    ∃ m : Lexer, l.Reaches [.mark kind (Cluster.text js)] m ∧ m.Beyond mode levels brackets ks := by
  have htaken : l.cursor.rest.take js.length = js := by
    rw [h.rest, take_left]
  have hne : kind ≠ .eof := by
    rintro rfl
    cases hkind
  have hcolumn : 2 ≤ (l.cursor.skip js.length).column := by
    have hrest := h.rest
    rw [hlast, append_assoc] at hrest
    rw [hlast, length_append]
    exact Cursor.two_le_column_skip hfeed h.one_le_column hrest
  rw [take, htaken] at hcontent
  refine ⟨_, ⟨_, h.trace hcontent hne, rfl, ?_⟩,
    ⟨?_, h.brackets, h.indents, h.mode, h.fault, hcolumn⟩, hkind⟩
  · rw [Written.line_single, Cluster.text, String.toList_ofList]
    change (l.cursor.skip js.length).offset = _
    rw [Cursor.offset_skip, htaken]
    rfl
  · rw [Cursor.rest_skip, h.rest, drop_left]

/-- Over a bracket. -/
theorem On.bracket {b : Char} {brackets' : List Bracket}
    (h : l.On mode levels brackets (⟨b, []⟩ :: ks)) (hb : isGap b = false)
    (hkind : kind.isInline) (hcontent : l.content = .ok (l.token kind b.toString,
      { l with cursor := l.cursor.step, brackets := brackets' })) :
    ∃ m : Lexer, l.Reaches [.mark kind b.toString] m ∧ m.Beyond mode levels brackets' ks := by
  have hrest := h.rest
  have hfeed : (⟨b, []⟩ : Cluster).lead ≠ '\n' := by
    rw [lead_single]
    exact (ne_of_not_isGap hb).2.2.2.1
  have hstep : l.cursor.step =
      ⟨ks, l.cursor.line, l.cursor.column + 1, l.cursor.offset + Text.byteSize [b]⟩ := by
    generalize l.cursor = cursor at hrest
    obtain ⟨ks, line, column, offset⟩ := cursor
    cases hrest
    rw [Cursor.step, if_neg hfeed]
    rfl
  have hne : kind ≠ .eof := by
    rintro rfl
    cases hkind
  rw [hstep] at hcontent
  refine ⟨_, ⟨_, h.trace hcontent hne, rfl, ?_⟩,
    ⟨rfl, rfl, h.indents, h.mode, h.fault, Nat.succ_le_succ h.one_le_column⟩, hkind⟩
  rw [Written.line_single, Char.toString, String.toList_singleton]

theorem On.opening (b : Bracket) (h : l.On mode levels brackets (⟨b.opening, []⟩ :: ks)) :
    ∃ m : Lexer, l.Reaches [Written.opening b] m ∧ m.Beyond mode levels (b :: brackets) ks := by
  have hgap : isGap b.opening = false := by cases b <;> rfl
  have hcontent : l.content = .ok (l.openBracket b) :=
    Takes.content_of_front (.opening (by rw [lead_single]; cases b <;> rfl)) h.rest
      (by rwa [lead_single])
  rw [openBracket, h.brackets] at hcontent
  exact h.bracket hgap rfl hcontent

theorem On.closing (b : Bracket) (h : l.On mode levels (b :: brackets) (⟨b.closing, []⟩ :: ks)) :
    ∃ m : Lexer, l.Reaches [Written.closing b] m ∧ m.Beyond mode levels brackets ks := by
  have hgap : isGap b.closing = false := by cases b <;> rfl
  exact h.bracket hgap rfl (Takes.content_of_front
    (.closing (by rw [lead_single]; cases b <;> rfl) h.brackets) h.rest (by rwa [lead_single]))

end

/-! ## Tokens of one text -/

section

variable {l : Lexer} {mode : WordMode} {levels : List Nat} {brackets : List Bracket} {c d : Char}
  {cs rest ds : List Char} {kind : TokenKind}

/-- A blank in front of a token makes no difference to it. -/
theorem At.blank (h : l.At levels brackets (' ' :: c :: cs)) (hc : isSolid c) :
    ∃ m : Lexer, m.At levels brackets (c :: cs) ∧ 2 ≤ m.cursor.column ∧
      ∀ ws n, marks ws ≠ [] → m.Reaches ws n → l.Reaches (.blank :: ws) n := by
  have hapart := isApart_of_isSolid hc
  obtain ⟨k, ks, hks, -, hlead⟩ := ofChars_front hapart cs
  rw [At, ofChars_cons (by decide) (by rintro _ ⟨⟩; exact hapart), hks] at h
  obtain ⟨m, hm, hmoved, hscan⟩ := h.blank (.inl (by rw [hlead]; exact (isSolid_iff.mp hc).2))
  rw [← hks] at hm
  refine ⟨m, hm.at, hm.column, ?_⟩
  rintro ws n hws ⟨ts, htrace, hts, hoffset⟩
  rw [hmoved] at hts hoffset
  refine ⟨ts, ?_, hts, hoffset.trans (Nat.add_assoc _ _ _)⟩
  cases htrace with
  | refl =>
    have hmarks := congrArg (map Prod.fst) hts
    rw [Written.map_fst_stamps] at hmarks
    exact absurd hmarks.symm hws
  | step _ hfirst hkind hlater => exact .step h.fault (hscan.trans hfirst) hkind hlater

/-- The characters of a word or a number are solid, the last of them too. -/
theorem exists_last_of_all {w : List Char} (hne : w ≠ []) {p : Char → Bool} (hw : w.all p) :
    ∃ ds d, w = ds ++ [d] ∧ p d := by
  obtain ⟨ds, d, hlast⟩ := (eq_nil_or_concat' w).resolve_left hne
  refine ⟨ds, d, hlast, all_eq_true.mp hw d ?_⟩
  rw [hlast]
  exact mem_append_right _ mem_cons_self

/-- A token of printable characters, where the first of them decides what is taken. -/
theorem On.solid (h : l.On mode levels brackets (ofChars (c :: cs ++ rest)))
    (hall : ∀ d ∈ c :: cs, isSolid d) (hrest : ∀ d ∈ rest.head?, isApart d) (hkind : kind.isInline)
    (htakes : l.Takes ⟨c, []⟩ (cs.map (⟨·, []⟩) ++ ofChars rest)
      (.ok (l.take kind (cs.length + 1)))) :
    ∃ m : Lexer, l.Reaches [.mark kind (String.ofList (c :: cs))] m ∧
      m.Beyond mode levels brackets (ofChars rest) := by
  rw [ofChars_plain (fun d hd => (isSolid_iff.mp (hall d hd)).1) hrest] at h
  have hgap := (isSolid_iff.mp (hall c mem_cons_self)).2
  have hcontent := htakes.content_of_front h.rest (by rwa [lead_single])
  rw [← length_cons (a := c), ← length_map (f := (⟨·, []⟩ : Char → Cluster))] at hcontent
  obtain ⟨ds, d, hlast, hd⟩ := exists_last_of_all (cons_ne_nil c cs) (all_eq_true.mpr hall)
  have hjs : (c :: cs).map (⟨·, []⟩ : Char → Cluster) = ds.map (⟨·, []⟩) ++ [⟨d, []⟩] := by
    rw [hlast, map_append, map_singleton]
  have hfeed := (ne_of_not_isGap (isSolid_iff.mp hd).2).2.2.2.1
  have htaken := h.taken hjs (by rwa [lead_single]) hkind hcontent
  rwa [Cluster.text_single] at htaken

/-- A word is scanned as a keyword or as an identifier. At the start of a line `css` would change
how the words after it are scanned. -/
theorem At.word {w : String} (h : l.At levels brackets (w.toList ++ rest))
    (hw : isWordText w) (hrest : isClear rest)
    (hstyle : TokenKind.ofWord w ≠ .keyword .css ∨ 2 ≤ l.cursor.column) :
    ∃ m : Lexer, l.Reaches [.mark (.ofWord w) w] m ∧ m.Past levels brackets rest := by
  obtain ⟨c, cs, hcs, hc, -⟩ := isWordText_cases hw
  have hparts := all_eq_true.mp (all_isNamePart hw)
  have hsolid : ∀ d ∈ w.toList, isSolid d := fun d hd => isSolid_of_isNamePart (hparts d hd)
  have hplain : ∀ d ∈ w.toList, isPlain d := fun d hd => (isSolid_iff.mp (hsolid d hd)).1
  have hclear := isClear_front hrest
  have hapart : ∀ d ∈ rest.head?, isApart d := fun d hd => (hclear d hd).1
  have hrun : Lexeme.run isNamePart l.cursor.rest = w.toList.length := by
    rw [h.rest, run_plain hplain hparts hclear]
  have htext : Cluster.text (l.cursor.rest.take w.toList.length) = w := by
    rw [h.rest, ofChars_plain hplain hapart, take_left' (length_map _), Cluster.text_single,
      String.ofList_toList]
  have hheading : (decide (TokenKind.ofWord w = .keyword .css) &&
      decide (l.cursor.column = 1)) = false := by
    rw [Bool.and_eq_false_iff, decide_eq_false_iff_not, decide_eq_false_iff_not]
    exact hstyle.imp id fun hcolumn heq => by omega
  have hword : Lexer.word { l with mode := .plain } = l.take (.ofWord w) w.toList.length := by
    have hsame : { l with mode := .plain } = l := by rw [← h.mode]
    rw [hsame, Lexer.word, hrun, htext, hheading]
    rfl
  have hkind : (TokenKind.ofWord w).isInline := by
    rw [TokenKind.ofWord]
    cases Keyword.ofText? w <;> rfl
  rw [hcs] at h hsolid hword
  have htaken := h.solid hsolid hapart hkind
    (hword ▸ .word (by rwa [lead_single]) (headingMode_of_plain h.mode))
  rwa [← hcs, String.ofList_toList] at htaken

theorem At.numeral {digits : String} (h : l.At levels brackets (digits.toList ++ rest))
    (hdigits : Script.isNumeral digits) (hrest : endsNumber rest) :
    ∃ m : Lexer, l.Reaches [.mark .number digits] m ∧ m.Past levels brackets rest := by
  obtain ⟨c, cs, hcs, hc, hlater⟩ := isNumeral_front hdigits
  have hsolid := all_eq_true.mp (all_of_isNumeral isSolid_of_isNamePart (by decide) hdigits)
  have hapart := endsNumber_front hrest
  rw [hcs] at h hsolid
  have hnumber : number l.cursor.rest = cs.length + 1 := by
    rw [h.rest, ofChars_plain (fun d hd => (isSolid_iff.mp (hsolid d hd)).1) hapart, map_cons,
      cons_append, number_cons (by rwa [lead_single]), number_plain hlater hrest]
  have htakes : l.Takes ⟨c, []⟩ (cs.map (⟨·, []⟩) ++ ofChars rest)
      (.ok (l.take .number (cs.length + 1))) := hnumber ▸ .number (by rwa [lead_single]) h.mode
  have htaken := h.solid hsolid hapart rfl htakes
  rwa [← hcs, String.ofList_toList] at htaken

theorem On.string {text : String} (h : l.On mode levels brackets (ofChars (text.toList ++ rest)))
    (htext : isStringText text) (hrest : ∀ c ∈ rest.head?, isApart c) :
    ∃ m : Lexer, l.Reaches [.mark .string text] m ∧ m.Beyond mode levels brackets (ofChars rest) := by
  obtain ⟨k, ks, hks, hquote, hends⟩ := isStringText_iff.mp htext
  have hplain : ∀ j : Cluster, j.lead = k.lead → isPlain j.first ∧ j.lead ≠ '\n' := by
    intro j hj
    have hfeed : j.lead ≠ '\n' := by
      rw [hj]
      rcases hquote with h | h <;> rw [h] <;> decide
    rw [← Cluster.lead_eq_first hfeed, hj]
    refine ⟨?_, by rwa [hj] at hfeed⟩
    rcases hquote with h | h <;> rw [h] <;> decide
  obtain ⟨init, last, hlast, hlead⟩ := exists_last_of_stringRest hends
  have hwhole : ofChars text.toList = (k :: init) ++ [last] := by
    rw [cons_append, ← hlast]
    exact hks
  have hgap : isGap k.lead = false := by
    rcases hquote with h | h <;> rw [h] <;> rfl
  rw [Cluster.ofChars_append (after_of_last hwhole (hplain last hlead).1) hrest] at h
  have hcontent : l.content = .ok (l.take .string (ofChars text.toList).length) := by
    have hlength : (ofChars text.toList).length = ks.length + 1 := congrArg length hks
    rw [hlength]
    exact Takes.content_of_front (.string hquote (stringRest_append hends))
      (h.rest.trans (congrArg (· ++ ofChars rest) hks)) hgap
  have htaken := h.taken hwhole (hplain last hlead).2 rfl hcontent
  rwa [Cluster.text_ofChars, String.ofList_toList] at htaken

/-- A character that only starts operators and punctuation marks. -/
def isSign (c : Char) : Bool :=
  isSolid c && !(c = '"' || c = '\'') && (Bracket.ofOpening? c).isNone &&
    (Bracket.ofClosing? c).isNone && !isLetter c && !isDigit c

theorem isSolid_of_isSign (h : isSign c) : isSolid c := by
  simp only [isSign, Bool.and_eq_true] at h
  exact h.1.1.1.1.1

theorem isInline_of_operator {next : Option Char} {length : Nat}
    (h : operator c next = some (kind, length)) : kind.isInline := by
  unfold operator at h
  dsimp only at h
  split at h <;> (try split at h) <;> cases h <;> rfl

/-- An operator or a punctuation mark, by what stands after it. -/
theorem On.sign (h : l.On mode levels brackets (ofChars (c :: cs ++ rest)))
    (hmode : isStyleWordStart c → mode = .plain) (hc : isSign c) (hcs : cs.all isSolid)
    (hrest : ∀ d ∈ rest.head?, isApart d)
    (hsign : operator c (cs ++ rest).head? = some (kind, cs.length + 1)) :
    ∃ m : Lexer, l.Reaches [.mark kind (String.ofList (c :: cs))] m ∧
      m.Beyond mode levels brackets (ofChars rest) := by
  have hall : ∀ d ∈ c :: cs, isSolid d :=
    forall_mem_cons.mpr ⟨isSolid_of_isSign hc, all_eq_true.mp hcs⟩
  refine h.solid hall hrest (isInline_of_operator hsign) (.sign ?_ ?_)
  · rw [lead_single, h.mode]
    exact hmode
  · have hplain : ∀ d ∈ cs, isPlain d := fun d hd =>
      (isSolid_iff.mp (all_eq_true.mp hcs d hd)).1
    rw [← ofChars_plain hplain hrest, lead_single, Cluster.first_ofChars, hsign]

end

end Lexer

end Stencil
