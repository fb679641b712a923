import Stencil.Proofs.Text.Words
import Stencil.Proofs.Token.Scanning
import Stencil.Proofs.Token.Spelling

/-!
# How style blocks are spelled

What a style block is made of, if it was read from a source: words that are scanned as style words on
their own, strings, and values that are put together from them with few signs and with blanks at
fixed places. A selector is one word again, apart from a dot in front and a state behind it.
-/
namespace Stencil

open Text (Cluster BreakClass BreakContext isPlain isLetter isDigit)
open Written (line enclose)
open List

/-! ## Words and strings -/

namespace Lexeme

/-- A character of a style word, or a mark on one. -/
def isStyleWordChar (c : Char) : Bool := isStyleWordPart c || (BreakClass.of c).attaches

variable {c : Char}

theorem isStyleWordPart_of_start (h : isStyleWordStart c) : isStyleWordPart c := by
  rw [isStyleWordPart, h]
  rfl

theorem isPlain_of_isStyleWordPart (h : isStyleWordPart c) : isPlain c := by
  simp only [isStyleWordPart, isStyleWordStart, Bool.or_eq_true, beq_iff_eq] at h
  rcases h with ((hname | rfl) | rfl) | rfl
  · exact (isSolid_iff.mp (isSolid_of_isNamePart (by rwa [isNamePart, Bool.or_eq_true]))).1
  all_goals decide

/-- A cluster of a style word is led by its first character. -/
theorem isStyleWordPart_first {k : Cluster} (h : isStyleWordPart k.lead) : k.lead = k.first :=
  Cluster.lead_eq_first fun heq => by rw [heq] at h; cases h

end Lexeme

/-- A text that is scanned as one style word. -/
def isStyleWordText (text : String) : Bool :=
  text.toList.head?.any Lexeme.isStyleWordStart && text.toList.all Lexeme.isStyleWordChar

theorem exists_start_of_isStyleWordText {text : String} (h : isStyleWordText text) :
    ∃ c cs, text.toList = c :: cs ∧ Lexeme.isStyleWordStart c := by
  have hstart := (Bool.and_eq_true_iff.mp h).1
  cases hcs : text.toList with
  | nil =>
    rw [hcs] at hstart
    cases hstart
  | cons c cs =>
    rw [hcs] at hstart
    exact ⟨c, cs, rfl, hstart⟩

section Literals

variable {source : String} {k : Cluster} {ks : List Cluster} {t : Token}

/-- Clusters of a source that start with an ASCII character are the clusters of their text. -/
theorem segment_text (hks : k :: ks <:+: Cluster.segment source) (hk : isPlain k.first) :
    Cluster.segment (Cluster.text (k :: ks)) = k :: ks := by
  obtain ⟨init, rest, hwhole⟩ := hks
  have hsegmented := Cluster.isSegmented_segment source
  rw [← hwhole, append_assoc, Cluster.isSegmented_append] at hsegmented
  have hown := (Cluster.isSegmented_append.mp hsegmented.2.1).1
  rw [@Cluster.isSegmented_congr _ .other _ ks] at hown
  · rw [Cluster.segment, Cluster.text, String.toList_ofList, Cluster.segmentFrom_flatMap hown]
  · rw [BreakClass.of_isPlain hk, BreakContext.next_other, BreakContext.next_other]

theorem isStyleWordText_text (hks : k :: ks <:+: Cluster.segment source)
    (hstart : Lexeme.isStyleWordStart k.lead)
    (hparts : ∀ j ∈ k :: ks, Lexeme.isStyleWordPart j.lead) :
    isStyleWordText (Cluster.text (k :: ks)) := by
  have hfirst := Lexeme.isStyleWordPart_first (hparts k mem_cons_self)
  rw [isStyleWordText, Cluster.text, String.toList_ofList, Bool.and_eq_true]
  constructor
  · rw [hfirst] at hstart
    exact hstart
  · rw [all_eq_true]
    intro c hc
    obtain ⟨j, hj, hmem⟩ := mem_flatMap.mp hc
    have hpart := hparts j hj
    rw [Lexeme.isStyleWordPart_first hpart] at hpart
    have hplain := Cluster.isPlain_of_mem (Cluster.isSegmented_segment source) (hks.subset hj)
      (Lexeme.isPlain_of_isStyleWordPart hpart)
    rw [Lexeme.isStyleWordChar, Bool.or_eq_true]
    rcases mem_cons.mp hmem with rfl | hjoined
    · exact .inl hpart
    · exact .inr (hplain.marks c hjoined)

/-- The text of a style word is one, and so is the text of a number. -/
theorem Token.isStyleWordText_literal (ht : t.SpelledIn (Cluster.segment source))
    (hkind : t.kind = .styleWord ∨ t.kind = .number) : isStyleWordText t.literal := by
  have hspelled : t.kind.isSpelled := by rcases hkind with h | h <;> rw [h] <;> rfl
  obtain ⟨ks, hks, hliteral, hspells⟩ := ht.literal hspelled
  rw [hliteral]
  generalize t.kind = kind at hkind hspelled hspells
  cases hspells with
  | word =>
    rw [TokenKind.ofWord] at hkind
    split at hkind <;> simp at hkind
  | styleWord hstart hparts => exact isStyleWordText_text hks hstart hparts
  | number hstart hparts =>
    refine isStyleWordText_text hks ?_ fun j hj => ?_
    · rw [Lexeme.isStyleWordStart, hstart, Bool.or_true]
      rfl
    · rcases hparts j hj with hdigit | hline | hdot
      · rw [Lexeme.isStyleWordPart, Lexeme.isStyleWordStart, hdigit, Bool.or_true]
        rfl
      · rw [hline]; rfl
      · rw [hdot]; rfl
  | string => simp at hkind
  | sign hsign =>
    rcases operator_cases hsign hspelled with ⟨-, rfl⟩ | ⟨-, rfl⟩ <;> simp at hkind

theorem Token.isStringText_literal (ht : t.SpelledIn (Cluster.segment source))
    (hkind : t.kind = .string) : isStringText t.literal := by
  have hspelled : t.kind.isSpelled := by rw [hkind]; rfl
  obtain ⟨ks, hks, hliteral, hspells⟩ := ht.literal hspelled
  rw [hliteral, isStringText_iff]
  generalize t.kind = kind at hkind hspelled hspells
  cases hspells with
  | word =>
    rw [TokenKind.ofWord] at hkind
    split at hkind <;> simp at hkind
  | styleWord | number => simp at hkind
  | @string k ks hquote hrest =>
    refine ⟨k, ks, segment_text hks ?_, hquote, hrest⟩
    have hfeed : k.lead ≠ '\n' := by
      rcases hquote with h | h <;> rw [h] <;> decide
    rw [← Cluster.lead_eq_first hfeed]
    rcases hquote with h | h <;> rw [h] <;> decide
  | sign hsign =>
    rcases operator_cases hsign hspelled with ⟨-, rfl⟩ | ⟨-, rfl⟩ <;> simp at hkind

end Literals

/-! ## Values of properties -/

/-- A word or a string in a value. -/
inductive StyleLiteral where
  | word (text : String) (spelled : isStyleWordText text = true)
  | string (text : String) (spelled : isStringText text = true)

/-- A sign in a value. The dot and the mark of `!important` are the start of a word, the slash is
part of two. -/
inductive StyleSign where
  | comma | slash | dot | mark
deriving DecidableEq

namespace StyleSign

def kind : StyleSign → TokenKind
  | .comma => .comma
  | .slash => .slash
  | .dot => .dot
  | .mark => .keyword .not

def char : StyleSign → Char
  | .comma => ','
  | .slash => '/'
  | .dot => '.'
  | .mark => '!'

/-- A blank stands before the sign, as before a word. -/
def leads : StyleSign → Bool
  | .comma | .slash => false
  | .dot | .mark => true

/-- No blank stands after the sign. -/
def glues : StyleSign → Bool
  | .comma => false
  | .slash | .dot | .mark => true

def written (s : StyleSign) : Written := .mark s.kind s.char.toString

end StyleSign

namespace StyleLiteral

def text : StyleLiteral → String
  | .word text _ | .string text _ => text

def kind : StyleLiteral → TokenKind
  | .word .. => .styleWord
  | .string .. => .string

def written (x : StyleLiteral) : Written := .mark x.kind x.text

end StyleLiteral

/-- The value of a property: words, strings and signs, and words with a value in parentheses. -/
inductive StyleValue where
  | done
  | word (x : StyleLiteral) (rest : StyleValue)
  | call (x : StyleLiteral) (inner rest : StyleValue)
  | sign (s : StyleSign) (rest : StyleValue)

/-- A blank, unless what follows is glued to what is before it. -/
def Written.gap (glued : Bool) : List Written := if glued then [] else [.blank]

/-- The tokens of a value, with its blanks. -/
def StyleValue.written : Bool → StyleValue → List Written
  | _, .done => []
  | glued, .word x rest => Written.gap glued ++ x.written :: rest.written false
  | glued, .call x inner rest =>
    Written.gap glued ++ x.written :: (enclose .paren (inner.written true) ++ rest.written false)
  | glued, .sign s rest => Written.gap (glued || !s.leads) ++ s.written :: rest.written s.glues

open Stencil.Parser (Gives)

section Reading

variable {source : String}

/-- A word, a number or a string is a literal of a value. -/
theorem Token.exists_styleLiteral {t : Token} (ht : t.SpelledIn (Cluster.segment source))
    (hkind : t.kind = .styleWord ∨ t.kind = .number ∨ t.kind = .string) :
    ∃ x : StyleLiteral, x.text = t.literal := by
  rcases or_assoc.mpr hkind with hword | hstring
  · exact ⟨.word t.literal (t.isStyleWordText_literal ht hword), rfl⟩
  · exact ⟨.string t.literal (t.isStringText_literal ht hstring), rfl⟩

theorem Written.line_gap (glued : Bool) : line (gap glued) = (if glued then "" else " ").toList := by
  cases glued <;> rfl

theorem Written.line_cons_mark (kind : TokenKind) (text : String) (ws : List Written) :
    line (.mark kind text :: ws) = text.toList ++ line ws :=
  flatMap_cons

theorem Written.line_enclose (b : Bracket) (ws : List Written) :
    line (enclose b ws) = b.opening :: (line ws ++ [b.closing]) := by
  rw [enclose, cons_append, opening, line_cons_mark, line_append, closing, line_single]
  simp

theorem Property.valueFrom_spelled (rounds : Nat) (glued : Bool) :
    (valueFrom rounds glued).Gives (SpelledFrom source) fun text =>
      ∃ v : StyleValue, text.toList = line (v.written glued) := by
  induction rounds generalizing glued with
  | zero => exact .pure ⟨.done, rfl⟩
  | succ rounds ih =>
    refine .round fun left => Gives.current.bind fun t ⟨_, ht⟩ => ?_
    extract_lets gap word
    have hgap : line (Written.gap glued) = gap.toList := Written.line_gap glued
    have hsign : ∀ s : StyleSign, ∀ front : String,
        front.toList = line (Written.gap (glued || !s.leads) ++ [s.written]) →
        (do
          Parser.advance
          let later ← Parser.again left (valueFrom rounds s.glues)
          return front ++ later : Parser String).Gives (SpelledFrom source)
            fun text => ∃ v : StyleValue, text.toList = line (v.written glued) := by
      intro s front hfront
      refine .after fun _ => ((ih s.glues).again left).bind fun later => ?_
      rintro ⟨v, hv⟩
      refine .pure ⟨.sign s v, ?_⟩
      rw [String.toList_append, hfront, hv, ← Written.line_append, append_assoc]
      rfl
    have hleading : ∀ s : StyleSign, s.leads → (gap ++ s.char.toString).toList =
        line (Written.gap (glued || !s.leads) ++ [s.written]) := by
      intro s hs
      rw [hs, Bool.not_true, Bool.or_false, Written.line_append, hgap, String.toList_append,
        StyleSign.written, Written.line_single]
    split
    case h_1 | h_2 | h_3 =>
      next hkind =>
      obtain ⟨x, hx⟩ := t.exists_styleLiteral ht (by simp [hkind])
      refine .after fun _ => .after fun found => ?_
      refine .ite (fun _ => ?_) fun _ => ((ih false).again left).bind ?_
      · refine ((ih true).again left).bind ?_
        rintro inner ⟨u, hu⟩
        refine .after fun _ => ((ih false).again left).bind ?_
        rintro later ⟨v, hv⟩
        refine .pure ⟨.call x u v, ?_⟩
        simp only [word, String.toList_append, StyleValue.written, Written.line_append, hgap, hu, hv,
          StyleLiteral.written, Written.line_cons_mark, hx, Written.line_enclose, append_assoc,
          cons_append, nil_append]
        rfl
      · rintro later ⟨v, hv⟩
        refine .pure ⟨.word x v, ?_⟩
        simp only [word, String.toList_append, StyleValue.written, Written.line_append, hgap, hv,
          StyleLiteral.written, Written.line_cons_mark, hx, append_assoc]
    · exact hsign .comma "," (by rw [StyleSign.leads, Bool.not_false, Bool.or_true]; rfl)
    · exact hsign .slash "/" (by rw [StyleSign.leads, Bool.not_false, Bool.or_true]; rfl)
    · exact hsign .dot (gap ++ ".") (hleading .dot rfl)
    · exact hsign .mark (gap ++ "!") (hleading .mark rfl)
    · exact .pure ⟨.done, rfl⟩

/-! ## Selectors -/

/-- A part of a style word between two dots. -/
def isClassText (text : String) : Bool :=
  !text.isEmpty && text.toList.all fun c => c ≠ '.' && Lexeme.isStyleWordChar c

namespace Selector

/-- The parts of the word that a selector is written as. -/
def parts (s : Selector) : List String :=
  if s.element.isEmpty then s.classes else s.element :: s.classes

/-- The parts may stand in one style word, and the state is one. -/
def isSpelled (s : Selector) : Bool :=
  s.parts.head?.any (·.toList.head?.any Lexeme.isStyleWordStart) && s.parts.all isClassText &&
    (s.state.isEmpty || isStyleWordText s.state)

/-- A style word is cut at its dots into such parts. -/
theorem dotted_spelled {text : String} (h : isStyleWordText text) :
    (dotted text).1.toList.head?.any Lexeme.isStyleWordStart ∧
      ∀ part ∈ (dotted text).1 :: (dotted text).2, isClassText part := by
  obtain ⟨c, cs, hcs, hstart⟩ := exists_start_of_isStyleWordText h
  have hall := (Bool.and_eq_true_iff.mp h).2
  have hdot : c ≠ '.' := by
    rintro rfl
    cases hstart
  obtain ⟨part, parts, -, hsplit⟩ := Text.splitChars_cons hdot cs
  have hdotted : dotted text =
      (String.ofList (c :: part), (parts.map String.ofList).filter (!·.isEmpty)) := by
    rw [dotted, Text.split, hcs, hsplit]
    rfl
  have hclass : ∀ p ∈ (c :: part) :: parts, (String.ofList p).isEmpty = false →
      isClassText (String.ofList p) := by
    intro p hp hne
    rw [isClassText, hne, Bool.not_false, Bool.true_and, String.toList_ofList, all_eq_true]
    intro d hd
    obtain ⟨hne, hmem⟩ := Text.mem_of_mem_splitChars (hsplit.symm ▸ hp) hd
    rw [all_eq_true, hcs] at hall
    rw [decide_eq_true hne, hall d hmem]
    rfl
  rw [hdotted]
  refine ⟨by rw [String.toList_ofList]; exact hstart, forall_mem_cons.mpr ⟨?_, ?_⟩⟩
  · refine hclass _ mem_cons_self ?_
    simp
  · intro p hp
    obtain ⟨hp, hne⟩ := mem_filter.mp hp
    obtain ⟨q, hq, rfl⟩ := mem_map.mp hp
    exact hclass q (mem_cons_of_mem _ hq) (by simpa using hne)

/-- Parts of which the first may start a style word. -/
def AreSpelled (parts : List String) : Prop :=
  parts.head?.any (·.toList.head?.any Lexeme.isStyleWordStart) = true ∧
    ∀ part ∈ parts, isClassText part = true

theorem AreSpelled.append {parts more : List String} (h : AreSpelled parts)
    (hmore : ∀ part ∈ more, isClassText part) : AreSpelled (parts ++ more) := by
  refine ⟨?_, forall_mem_append.mpr ⟨h.2, hmore⟩⟩
  cases parts with
  | nil => cases h.1
  | cons part parts => exact h.1

theorem classSuffix_spelled : classSuffix.Gives (SpelledFrom source) AreSpelled := by
  refine .after fun _ => (Gives.expect _).bind fun t ⟨⟨_, ht⟩, hkind⟩ => .after fun found => ?_
  have hdotted := dotted_spelled (t.isStyleWordText_literal ht (.inl hkind))
  exact .ite (fun _ => .after fun _ => .pure hdotted) fun _ => .pure hdotted

theorem stateSuffix_spelled : stateSuffix.Gives (SpelledFrom source)
    fun state => (state.isEmpty || isStyleWordText state) = true := by
  intro reading tokens state rest htokens hending h
  obtain ⟨front, middle, ⟨⟩, h⟩ := Parser.bind_eq_ok.mp h
  obtain ⟨second, middle, ⟨⟩, h⟩ := Parser.bind_eq_ok.mp h
  split at h
  · next hkinds =>
    -- The word is the second token, whose kind has been looked at.
    obtain ⟨_, middle, ⟨⟩, h⟩ := Parser.bind_eq_ok.mp h
    cases h
    have hword := of_decide_eq_true (Bool.and_eq_true_iff.mp hkinds).2
    obtain ⟨_, hspelled⟩ := Gives.current reading tokens.tail _ _
      (fun t ht => htokens t (mem_of_mem_tail ht)) hending rfl
    rw [Token.isStyleWordText_literal hspelled (.inl hword), Bool.or_true]
  · cases h
    rfl

theorem parser_spelled : Selector.parser.Gives (SpelledFrom source) (·.isSpelled) := by
  refine Gives.current.bind fun t ⟨_, ht⟩ => ?_
  extract_lets named
  have hnamed : ∀ front : String × List String, front = ("", []) ∨ AreSpelled (front.1 :: front.2) →
      (named front).Gives (SpelledFrom source) (·.isSpelled) := by
    intro front hfront
    refine (classSuffix_spelled.many _).bind fun suffixes hsuffixes => ?_
    refine .ite (fun _ => .fail _) fun hnamed =>
      stateSuffix_spelled.bind fun state hstate => .pure ?_
    have hclasses : ∀ part ∈ suffixes.flatten, isClassText part := by
      intro part hpart
      obtain ⟨parts, hparts, hmem⟩ := mem_flatten.mp hpart
      exact (hsuffixes parts hparts).2 part hmem
    have hparts : AreSpelled (parts ⟨front.1, front.2 ++ suffixes.flatten, state⟩) := by
      rcases hfront with rfl | hfront
      · cases suffixes with
        | nil => exact absurd rfl hnamed
        | cons parts suffixes =>
          have hlater := (forall_mem_append.mp hclasses).2
          exact (hsuffixes parts mem_cons_self).append hlater
      · have hne : front.1.isEmpty = false := by
          have := hfront.2 front.1 mem_cons_self
          rw [isClassText, Bool.and_eq_true] at this
          simpa using this.1
        rw [parts, hne, if_neg Bool.false_ne_true]
        exact hfront.append hclasses
    rw [isSpelled, hparts.1, all_eq_true.mpr hparts.2, hstate]
    rfl
  refine .ite (fun hword => ?_) fun _ => ?_
  · refine .after fun _ => .bind (P := (· = dotted t.literal)) (.pure rfl) ?_
    rintro _ rfl
    exact hnamed _ (.inr (dotted_spelled (t.isStyleWordText_literal ht (.inl hword))))
  · refine .bind (P := (· = ("", []))) (.pure rfl) ?_
    rintro _ rfl
    exact hnamed _ (.inl rfl)

end Selector

/-! ## Blocks -/

/-- A parameter of a style block that can be written. -/
structure Param.IsSpelled (p : Param) : Prop where
  name : isStyleWordText p.name = true
  fallback : ∀ literal ∈ p.fallback, isStringText literal = true

structure Property.IsSpelled (p : Property) : Prop where
  name : isStyleWordText p.name = true
  value : ∃ v : StyleValue, p.value.toList = line (v.written true)

structure Rule.IsSpelled (r : Rule) : Prop where
  named : r.selectors ≠ []
  selectors : ∀ s ∈ r.selectors, s.isSpelled = true
  properties : ∀ p ∈ r.properties, p.IsSpelled

structure StyleBlock.IsSpelled (b : StyleBlock) : Prop where
  params : ∀ p ∈ b.params, p.IsSpelled
  rules : ∀ r ∈ b.rules, r.IsSpelled

theorem Param.parser_spelled :
    (Param.parser .styleWord).Gives (SpelledFrom source) Param.IsSpelled := by
  refine .after fun position => (Gives.expect _).bind fun name ⟨⟨_, ht⟩, hkind⟩ => ?_
  have hname := name.isStyleWordText_literal ht (.inl hkind)
  refine .after fun found => .ite (fun _ => ?_) fun _ => .pure ⟨hname, nofun⟩
  refine (Gives.expect _).bind fun literal ⟨⟨_, ht⟩, hkind⟩ => .pure ⟨hname, ?_⟩
  rintro _ ⟨⟩
  exact literal.isStringText_literal ht hkind

theorem Property.parser_spelled : Property.parser.Gives (SpelledFrom source) Property.IsSpelled := by
  refine Gives.current.bind fun t ⟨_, ht⟩ => .ite (fun hword => ?_) fun _ => .fail _
  have hname := t.isStyleWordText_literal ht (.inl hword)
  refine .after fun _ => .after fun _ => (Gives.bounded fun rounds =>
    valueFrom_spelled rounds true).bind fun value hvalue => ?_
  exact .after fun _ => .pure ⟨hname, hvalue⟩

theorem Rule.parser_spelled : Rule.parser.Gives (SpelledFrom source) Rule.IsSpelled :=
  .after fun _ => Selector.parser_spelled.commaList1.bind fun _ hselectors =>
    .after fun _ => .after fun _ => Property.parser_spelled.indented.bind fun _ hproperties =>
      .pure ⟨hselectors.1, hselectors.2, hproperties⟩

theorem StyleBlock.parser_spelled (position : Position) :
    (StyleBlock.parser position).Gives (SpelledFrom source) StyleBlock.IsSpelled :=
  (Param.listParser_gives Param.parser_spelled).bind fun _ hparams =>
    .after fun _ => Rule.parser_spelled.indented.bind fun _ hrules => .pure ⟨hparams, hrules⟩

/-- What a style block of a source is made of. -/
theorem Template.isSpelled_of_read {file : String} {t : Template}
    (h : Template.read file source = .ok t) {b : StyleBlock} (hb : b ∈ t.styleBlocks) :
    b.IsSpelled :=
  (Template.of_read_spelled (Template.parser_gives StyleBlock.parser_spelled fun _ => .any _) h).1 b hb

end Reading

end Stencil
