import Stencil.Proofs.Markup.RoundTrip
import Stencil.Proofs.Style.Printing
import Stencil.Proofs.Token.Endings

/-!
# Reading style blocks back

A style block that was read from a source is written and read again. The block that comes back has
the same parameters, selectors and properties: blanks in a value stand where they stood, and a
selector is cut at the same dots.
-/
namespace Stencil

open Written (line enclose listed enclosed colon)
open Stencil.Expr (headKind)
open Stencil.Parser List Stands

/-! ## Values -/

/-- What ends a value. -/
def ClosesValue (kind : TokenKind) : Prop := kind = .closing .paren ∨ kind = .newline

variable {glued : Bool} {ts tail tokens : List Token} {ws : List Written} {t : Token} {rounds : Nat}
  {Q : String → List Token → Prop}

theorem Written.gap_stands (h : Stands ts (gap glued ++ ws)) : Stands ts ws := by
  cases glued with
  | true => exact h
  | false => exact h.blank

variable {r : Reading}

/-- A value does not start with a parenthesis. -/
theorem StyleValue.head_ne_opening (v : StyleValue) (glued : Bool)
    (hts : Stands ts (v.written glued)) (htail : ClosesValue (headKind r tail)) :
    headKind r (ts ++ tail) ≠ .opening .paren := by
  have hliteral : ∀ (x : StyleLiteral) {ts : List Token} {ws : List Written},
      Stands ts (Written.gap glued ++ x.written :: ws) →
        headKind r (ts ++ tail) ≠ .opening .paren := by
    intro x ts ws hts
    obtain ⟨t, rest, rfl, ht, -, -⟩ := (Written.gap_stands hts).cons
    rw [cons_append, headKind_cons, ht]
    cases x <;> exact TokenKind.noConfusion
  cases v with
  | done =>
    rw [nil hts, nil_append]
    rcases htail with h | h <;> rw [h] <;> simp
  | word x rest => exact hliteral x hts
  | call x inner rest => exact hliteral x hts
  | sign s rest =>
    obtain ⟨t, rest, rfl, ht, -, -⟩ := (Written.gap_stands hts).cons
    rw [cons_append, headKind_cons, ht]
    cases s <;> simp [StyleSign.kind]

/-- After a word or a string comes a value in parentheses or the rest of the value. -/
theorem Property.yields_literal {more : Bool → Parser String} {x : StyleLiteral}
    (ht : t.kind = x.kind)
    (h : (accept (.opening .paren)).Yields r tokens fun found rest => Yields (do
      if found then
        let inner ← more true
        let _ ← expect (.closing .paren)
        return (if glued then "" else " ") ++ t.literal ++ "(" ++ inner ++ ")" ++ (← more false)
      else return (if glued then "" else " ") ++ t.literal ++ (← more false)) r rest Q) :
    (valueStep more glued).Yields r (t :: tokens) Q := by
  refine .bind (.current ?_)
  cases x with
  | word | string =>
    simp only [StyleLiteral.kind] at ht
    simp only [headD_cons, ht]
    exact .bind (.advance (.bind h))

theorem Property.yields_sign {more : Bool → Parser String} {s : StyleSign} (ht : t.kind = s.kind)
    (h : (more s.glues).Yields r tokens fun later rest =>
      Q ((if glued || !s.leads then "" else " ") ++ s.char.toString ++ later) rest) :
    (valueStep more glued).Yields r (t :: tokens) Q := by
  refine .bind (.current ?_)
  cases s with
  | comma | slash =>
    simp only [StyleSign.kind] at ht
    simp only [headD_cons, ht]
    refine .bind (.advance (.bind (h.weaken fun later rest hQ => .pure ?_)))
    rw [StyleSign.leads, Bool.not_false, Bool.or_true] at hQ
    exact hQ
  | dot | mark =>
    simp only [StyleSign.kind] at ht
    simp only [headD_cons, ht]
    refine .bind (.advance (.bind (h.weaken fun later rest hQ => .pure ?_)))
    rw [StyleSign.leads, Bool.not_true, Bool.or_false] at hQ
    exact hQ

theorem StyleValue.reads (v : StyleValue) (glued : Bool) (hts : Stands ts (v.written glued))
    (hrounds : ts.length < rounds) (htail : ClosesValue (headKind r tail)) :
    (Property.valueFrom rounds glued).Yields r (ts ++ tail) fun value rest =>
      value.toList = line (v.written glued) ∧ rest = tail := by
  induction v generalizing ts tail rounds glued with
  | done =>
    rw [Stands.nil hts, nil_append]
    cases rounds with
    | zero => cases hrounds
    | succ rounds =>
      refine .round (.bind (.current ?_))
      rw [headKind] at htail
      rcases htail with h | h <;> simp only [h] <;> exact .pure ⟨rfl, rfl⟩
  | word x rest ih =>
    obtain ⟨t, later, rfl, ht, hliteral, hlater⟩ := (Written.gap_stands hts).cons
    cases rounds with
    | zero => cases hrounds
    | succ rounds =>
      refine .round (Property.yields_literal ht (.accept_other ?_ (.bind ?_)))
      · exact rest.head_ne_opening false hlater htail
      · refine ((ih false hlater (Nat.lt_of_succ_lt_succ hrounds) htail).again _).leaves ?_
        rintro value hvalue
        refine .pure ⟨?_, rfl⟩
        rw [written, Written.line_append, Written.line_gap, StyleLiteral.written,
          Written.line_cons_mark, String.toList_append, String.toList_append, hvalue, hliteral,
          append_assoc]
  | call x inner rest ihInner ihRest =>
    obtain ⟨t, later, rfl, ht, hliteral, hlater⟩ := (Written.gap_stands hts).cons
    obtain ⟨front, back, rfl, hfront, hback⟩ := Stands.append hlater
    obtain ⟨first, middle, last, rfl, hfirst, hlast, hmiddle⟩ := Stands.enclose hfront
    cases rounds with
    | zero => cases hrounds
    | succ rounds =>
      simp only [length_cons, length_append, length_nil] at hrounds
      simp only [cons_append, append_assoc, nil_append]
      have hclose : ClosesValue (headKind r (last :: (back ++ tail))) := .inl hlast
      refine .round (Property.yields_literal ht (.accept hfirst (.bind ?_)))
      refine ((ihInner true hmiddle (by omega) hclose).again _).leaves fun value hvalue => ?_
      refine .bind (.expect hlast (.bind ?_))
      refine ((ihRest false hback (by omega) htail).again _).leaves fun later hlater => ?_
      refine .pure ⟨?_, rfl⟩
      simp only [written, Written.line_append, Written.line_gap, StyleLiteral.written,
        Written.line_cons_mark, Written.line_enclose, String.toList_append, hvalue, hlater, hliteral,
        append_assoc, cons_append, nil_append]
      rfl
  | sign s rest ih =>
    obtain ⟨t, later, rfl, ht, -, hlater⟩ := (Written.gap_stands hts).cons
    cases rounds with
    | zero => cases hrounds
    | succ rounds =>
      refine .round (Property.yields_sign ht ?_)
      refine ((ih s.glues hlater (Nat.lt_of_succ_lt_succ hrounds) htail).again _).leaves ?_
      rintro value hvalue
      refine ⟨?_, rfl⟩
      rw [written, Written.line_append, Written.line_gap, StyleSign.written, Written.line_cons_mark,
        String.toList_append, String.toList_append, hvalue, append_assoc]

/-- A line of a property is read as this property. -/
theorem Property.reads_back {p : Property} (h : p.WrittenAs ws) {front : List Token}
    {newline : Token} (hfront : Stands front ws) (hnewline : newline.kind = .newline) :
    Property.parser.Yields r (front ++ newline :: tail) fun found rest =>
      found = p ∧ rest = tail := by
  obtain ⟨v, hvalue, rfl⟩ := h
  obtain ⟨t, rest, rfl, ht, hname, hrest⟩ := hfront.cons
  obtain ⟨sign, ts, rfl, hsign, -, hts⟩ := hrest.cons
  refine .bind (.current ?_)
  rw [cons_append, headD_cons, if_pos ht]
  refine .bind (.advance (.bind (.expect hsign (.bind ?_))))
  have hend : ClosesValue (headKind r (newline :: tail)) := .inr hnewline
  refine .bounded_append fun rounds hrounds => ?_
  refine (v.reads true hts.blank hrounds hend).leaves fun value htext => ?_
  refine .bind (.expect hnewline (.pure ⟨?_, rfl⟩))
  obtain rfl : value = p.value := String.toList_injective (htext.trans hvalue.symm)
  rw [hname]

/-! ## Selectors -/

namespace Selector

/-- What may follow a selector. -/
def Ends (kind : TokenKind) : Prop := kind = .comma ∨ kind = .newline

/-- A word that was put together from parts is cut into them again. -/
theorem dotted_intercalate {part : String} {parts : List String}
    (h : ∀ p ∈ part :: parts, isClassText p) :
    dotted (".".intercalate (part :: parts)) = (part, parts) := by
  have hclass : ∀ p ∈ part :: parts, p.isEmpty = false ∧ '.' ∉ p.toList := by
    intro p hp
    obtain ⟨hne, hall⟩ := Bool.and_eq_true_iff.mp (h p hp)
    refine ⟨by simpa using hne, fun hdot => ?_⟩
    have hchar := all_eq_true.mp hall '.' hdot
    simp at hchar
  have hsplit := Text.split_intercalate (cons_ne_nil part parts) fun p hp => (hclass p hp).2
  have hfilter : parts.filter (!·.isEmpty) = parts := by
    rw [filter_eq_self]
    intro p hp
    rw [(hclass p (mem_cons_of_mem part hp)).1]
    rfl
  rw [dotted, show "." = String.singleton '.' from rfl, hsplit]
  dsimp only
  rw [hfilter]

/-- After the words of a selector comes its state or the end of it. -/
theorem head_stateWritten {state : String} {ts tail : List Token}
    (hts : Stands ts (stateWritten state)) (htail : Ends (headKind r tail)) {kind : TokenKind}
    (hcolon : kind ≠ .colon) (hends : ¬Ends kind) : headKind r (ts ++ tail) ≠ kind := by
  rintro rfl
  rw [stateWritten] at hts
  split at hts
  · rw [nil hts] at hends
    exact hends htail
  · obtain ⟨t, rest, rfl, ht, -, -⟩ := hts.cons
    exact hcolon ht

theorem nonempty_of_isSpelled {s : Selector} (hs : s.isSpelled) :
    (s.element.isEmpty && s.classes.isEmpty) = false := by
  obtain ⟨⟨hhead, -⟩, -⟩ := areSpelled_of_isSpelled hs
  rw [parts] at hhead
  cases hempty : s.element.isEmpty with
  | false => rfl
  | true =>
    rw [hempty, if_pos rfl] at hhead
    cases hclasses : s.classes with
    | nil =>
      rw [hclasses] at hhead
      cases hhead
    | cons first rest => rfl

theorem stateSuffix_reads (state : String) :
    stateSuffix.Reads r Ends (stateWritten state) (· = state) := by
  intro ts tail hts htail
  rw [stateWritten] at hts
  refine .bind (.kind (.bind ⟨_, _, rfl, ?_⟩))
  split at hts
  · next hempty =>
    rw [nil hts, nil_append, if_neg]
    · exact .pure ⟨(String.isEmpty_iff.mp hempty).symm, rfl⟩
    · rw [headKind] at htail
      rcases htail with h | h <;> rw [h] <;> simp
  · obtain ⟨sign, rest, rfl, hsign, -, hrest⟩ := hts.cons
    obtain ⟨word, rfl, hword, rfl⟩ := hrest.single
    rw [if_pos (by simp [hsign, hword])]
    exact .bind (.advance (.bind (.current (.bind (.advance
      (.pure ⟨rfl, rfl⟩))))))

/-- Classes after a dot are one word. -/
theorem yields_classSuffix {dot word : Token} {tokens : List Token} {first : String}
    {rest : List String} (hword : word.kind = .styleWord)
    (hliteral : dotted word.literal = (first, rest)) (htokens : headKind r tokens ≠ .question)
    {Q : List String → List Token → Prop} (h : Q (first :: rest) tokens) :
    classSuffix.Yields r (dot :: word :: tokens) Q := by
  refine .bind (.advance (.bind (.expect hword ?_)))
  refine .bind (.accept_other htokens ?_)
  extract_lets classes
  rw [if_neg Bool.false_ne_true]
  simp only [classes, hliteral]
  exact .pure h

theorem reads {s : Selector} (hs : s.isSpelled) :
    Selector.parser.Reads r Ends s.written (· = s) := by
  obtain ⟨element, classes, state⟩ := s
  intro ts tail hts htail
  obtain ⟨⟨-, hclasses⟩, -⟩ := areSpelled_of_isSpelled hs
  have hne := nonempty_of_isSpelled hs
  obtain ⟨front, rest, rfl, hfront, hrest⟩ := append hts
  obtain ⟨word, back, rfl, hword, hliteral, hback⟩ := hrest.cons
  have hstate := stateSuffix_reads state back tail hback htail
  have hdone : ∀ rounds, (manyWhile (·.kind = .dot) classSuffix rounds).Yields r (back ++ tail)
      fun suffixes rest => suffixes = [] ∧ rest = back ++ tail := Yields.manyWhile_done
    (decide_eq_false (head_stateWritten hback htail (by simp) (by simp [Ends]))) ⟨rfl, rfl⟩
  refine .bind (.current ?_)
  extract_lets named
  -- The element and the classes are known once the suffixes are read; the state comes last.
  have hnamed : ∀ (front : String × List String) (later : List (List String)) (tokens : List Token),
      (many (·.kind = .dot) classSuffix).Yields r tokens (fun suffixes rest =>
        suffixes = later ∧ rest = back ++ tail) →
      front.1 = element → front.2 ++ later.flatten = classes →
        (named front).Yields r tokens fun s rest => s = ⟨element, classes, state⟩ ∧ rest = tail := by
    rintro ⟨_, early⟩ later tokens hmany rfl rfl
    refine .bind (hmany.leaves ?_)
    rintro suffixes rfl
    dsimp only
    rw [hne, if_neg Bool.false_ne_true]
    refine .bind (hstate.leaves ?_)
    rintro found rfl
    exact .pure ⟨rfl, rfl⟩
  rw [parts] at hclasses hliteral
  dsimp only at hfront hclasses hliteral
  by_cases hempty : element.isEmpty
  · rw [if_pos hempty] at hfront hclasses hliteral
    obtain ⟨dot, rfl, hsign, -⟩ := single hfront
    obtain ⟨first, others, rfl⟩ : ∃ first others, classes = first :: others := by
      refine exists_cons_of_ne_nil fun hnil => ?_
      rw [hempty, hnil] at hne
      cases hne
    simp only [cons_append, nil_append]
    rw [headD_cons, if_neg (by rw [hsign]; simp)]
    refine .bind (.pure (hnamed ("", []) [first :: others] _ ?_ ?_ ?_))
    · refine .bounded (.manyWhile_cons (decide_eq_true hsign) ?_)
      refine yields_classSuffix hword (by rw [hliteral, dotted_intercalate hclasses])
        (head_stateWritten hback htail (by simp) (by simp [Ends])) ((hdone _).leaves ?_)
      rintro suffixes rfl
      exact ⟨rfl, rfl⟩
    · exact (String.isEmpty_iff.mp hempty).symm
    · simp
  · rw [if_neg hempty] at hfront hclasses hliteral
    rw [nil hfront, nil_append, cons_append, headD_cons, if_pos hword]
    have hdotted : dotted word.literal = (element, classes) := by
      rw [hliteral, dotted_intercalate hclasses]
    refine .bind (.advance (.bind (.pure ?_)))
    rw [hdotted]
    exact hnamed (element, classes) [] _ (.bounded (hdone _)) rfl (append_nil classes)

end Selector

/-! ## What stands under a line -/

section Under

variable {α β : Type} {item : Parser α} {u : α → β} {g : α → Outline} {xs : List α}
  {tail : List Token}

/-- The line starts with a token that opens or closes no level. -/
def Outline.StartsInline : Outline → Prop
  | .line words _ => ∃ kind text rest, words = .mark kind text :: rest ∧ kind.isInline = true

theorem Outline.StartsInline.front {o : Outline} (h : o.StartsInline) {os : List Outline}
    {ts : List Token} (hts : Outlined ts (o :: os)) :
    ∃ t rest, ts = t :: rest ∧ t.kind.isInline := by
  obtain ⟨words, under⟩ := o
  obtain ⟨kind, text, later, rfl, hkind⟩ := h
  obtain ⟨front, newline, inner, rest, rfl, hfront, -, -, -⟩ := hts.cons
  obtain ⟨t, back, rfl, rfl, -, -⟩ := hfront.cons
  exact ⟨t, _, rfl, hkind⟩

/-- Items that each read their own line and what stands under it. -/
theorem yields_items (hstarts : ∀ x ∈ xs, (g x).StartsInline)
    (hitem : ∀ x ∈ xs, ∀ ts tail, Outlined ts [g x] → headKind r tail ≠ .indent →
      item.Yields r (ts ++ tail) fun y rest => u y = u x ∧ rest = tail) {ts : List Token}
    {dedent : Token} (hts : Outlined ts (xs.map g)) (hdedent : dedent.kind = .dedent) {rounds : Nat}
    (hrounds : ts.length < rounds) :
    (manyWhile (·.kind ≠ .dedent) item rounds).Yields r (ts ++ dedent :: tail) fun ys rest =>
      ys.map u = xs.map u ∧ rest = dedent :: tail := by
  induction xs generalizing ts rounds with
  | nil =>
    rw [Outlined.eq_nil hts, nil_append]
    exact .manyWhile_done (by simp [hdedent]) ⟨rfl, rfl⟩ rounds
  | cons x xs ih =>
    obtain ⟨hx, hxs⟩ := forall_mem_cons.mp hitem
    obtain ⟨hstart, hlater⟩ := forall_mem_cons.mp hstarts
    obtain ⟨front, back, rfl, hfront, hback⟩ := @Outlined.split _ [g x] (xs.map g) hts
    have hnext : headKind r (back ++ dedent :: tail) ≠ .indent := by
      cases xs with
      | nil =>
        rw [Outlined.eq_nil hback, nil_append, headKind_cons, hdedent]
        exact TokenKind.noConfusion
      | cons z zs =>
        obtain ⟨t, rest, rfl, ht⟩ := (hlater z mem_cons_self).front hback
        rw [cons_append, headKind_cons]
        intro hindent
        rw [hindent] at ht
        cases ht
    have hread := hx front _ hfront hnext
    obtain ⟨t, rest, rfl, ht⟩ := hstart.front hfront
    have hmore : t.kind ≠ .dedent := by
      intro hkind
      rw [hkind] at ht
      cases ht
    simp only [length_append, length_cons] at hrounds
    cases rounds with
    | zero => cases hrounds
    | succ rounds =>
      rw [append_assoc]
      refine .manyWhile_cons (decide_eq_true hmore) (hread.leaves fun y hy => ?_)
      refine (ih hlater hxs hback (by omega)).leaves fun ys hys => ?_
      exact ⟨by rw [map_cons, hy, hys, map_cons], rfl⟩

theorem yields_indented (hstarts : ∀ x ∈ xs, (g x).StartsInline)
    (hitem : ∀ x ∈ xs, ∀ ts tail, Outlined ts [g x] → headKind r tail ≠ .indent →
      item.Yields r (ts ++ tail) fun y rest => u y = u x ∧ rest = tail) {inner : List Token}
    (hinner : Nested inner (xs.map g)) (htail : headKind r tail ≠ .indent) :
    (indented item).Yields r (inner ++ tail) fun ys rest => ys.map u = xs.map u ∧ rest = tail := by
  generalize hos : xs.map g = os at hinner
  cases hinner with
  | none =>
    rw [map_eq_nil_iff.mp hos]
    exact .bind (.accept_other htail (.pure ⟨rfl, rfl⟩))
  | @some body indent dedent under hindent hunder hbody hdedent =>
    subst hos
    rw [cons_append, append_assoc]
    refine .bind (.accept hindent (.bind ?_))
    refine .bounded_append fun rounds hrounds => ?_
    refine (yields_items hstarts hitem hbody hdedent hrounds).leaves fun ys hys => ?_
    exact .bind (.expect hdedent (.pure ⟨hys, rfl⟩))

end Under

/-! ## Blocks -/

section Blocks

variable {f : Property → List Written} {rule : Rule} {ts tail : List Token} {b : StyleBlock}

theorem Selector.exists_front (s : Selector) :
    ∃ kind text rest, s.written = .mark kind text :: rest ∧ kind.isInline := by
  rw [written]
  split
  · exact ⟨_, _, _, rfl, rfl⟩
  · exact ⟨_, _, _, rfl, rfl⟩

theorem Rule.startsInline (h : rule.IsSpelled) (under : List Outline) :
    (Outline.line rule.written under).StartsInline := by
  obtain ⟨s, others, hselectors⟩ := exists_cons_of_ne_nil h.named
  obtain ⟨kind, text, words, hwords, hkind⟩ := s.exists_front
  obtain ⟨rest, hrest⟩ := Written.exists_listed s.written (others.map Selector.written)
  refine ⟨kind, text, words ++ rest, ?_, hkind⟩
  rw [Rule.written, hselectors, map_cons, hrest, hwords, cons_append]

theorem Rule.reads_back (h : rule.IsSpelled) (hf : ∀ p ∈ rule.properties, p.WrittenAs (f p))
    (hts : Outlined ts [.line rule.written (rule.properties.map fun p => .line (f p) [])])
    (htail : headKind r tail ≠ .indent) :
    Rule.parser.Yields r (ts ++ tail) fun y rest =>
      y.unplaced = rule.unplaced ∧ rest = tail := by
  obtain ⟨front, newline, inner, rfl, hfront, hnewline, hinner⟩ := hts.single
  have hselectors : (commaList (fun _ => true) Selector.parser).Yields r
      (front ++ newline :: (inner ++ tail)) fun ys rest =>
        ys.map id = rule.selectors.map id ∧ rest = newline :: (inner ++ tail) := by
    refine yields_commaList hfront (fun s _ => ?_)
      (fun s hs => Selector.reads (h.selectors s hs)) (.inl rfl) (.inr hnewline) ?_
      fun hnil => absurd hnil h.named
    · obtain ⟨kind, text, rest, hwritten, -⟩ := s.exists_front
      rw [hwritten]
      exact Opens.mark fun _ _ _ => rfl
    · rw [headKind_cons, hnewline]
      exact TokenKind.noConfusion
  have hproperties : (indented Property.parser).Yields r (inner ++ tail) fun ys rest =>
      ys.map id = rule.properties.map id ∧ rest = tail := by
    refine yields_indented (fun p hp => ?_) (fun p hp ts tail hts _ => ?_) hinner htail
    · obtain ⟨v, -, hws⟩ := hf p hp
      exact ⟨_, _, _, hws, rfl⟩
    · obtain ⟨front, newline, rfl, hfront, hnewline⟩ := hts.only
      rw [append_assoc]
      exact Property.reads_back (hf p hp) hfront hnewline
  rw [append_assoc]
  refine .bind (.here fun position => .bind ?_)
  rw [commaList1]
  refine hselectors.leaves fun selectors hfound => ?_
  refine .bind (.accept_other ?_ (.bind (.expect hnewline (.bind ?_))))
  · rw [headD_cons, hnewline]
    exact TokenKind.noConfusion
  · refine hproperties.leaves fun properties hread => ?_
    rw [map_id, map_id] at hfound hread
    exact .pure ⟨by rw [hfound, hread]; rfl, rfl⟩

/-- What follows the word `css`. -/
theorem StyleBlock.reads_back (h : b.IsSpelled)
    (hf : ∀ rule ∈ b.rules, ∀ p ∈ rule.properties, p.WrittenAs (f p)) {front inner : List Token}
    {newline : Token} (hfront : Stands front b.headingWritten) (hnewline : newline.kind = .newline)
    (hinner : Nested inner (b.rules.map fun rule =>
      .line rule.written (rule.properties.map fun p => .line (f p) [])))
    (htail : headKind r tail ≠ .indent) (position : Position) :
    (StyleBlock.parser position).Yields r (front ++ newline :: (inner ++ tail)) fun y rest =>
      y.unplaced = b.unplaced ∧ rest = tail := by
  obtain ⟨params, last, rfl, hparams, hlast⟩ := Stands.append hfront
  obtain ⟨sign, rfl, hsign, -⟩ := hlast.single
  rw [append_assoc]
  refine (reads_paramsOf r .styleWord TokenKind.noConfusion b.params).bind hparams ?_
    fun params hparams => ?_
  · rw [cons_append, headKind_cons, hsign]
    exact TokenKind.noConfusion
  · refine .bind (Yields.headingEnd hsign hnewline (.bind ?_))
    refine (yields_indented (u := Rule.unplaced)
      (fun rule hrule => Rule.startsInline (h.rules rule hrule) _)
      (fun rule hrule ts tail hts htail => Rule.reads_back (h.rules rule hrule) (hf rule hrule) hts
        htail) hinner htail).leaves fun rules hrules => ?_
    exact .pure ⟨by rw [unplaced, unplaced, hparams, hrules], rfl⟩

/-- A source with one style block in it. -/
theorem StyleBlock.reads_template (h : b.IsSpelled)
    (hf : ∀ rule ∈ b.rules, ∀ p ∈ rule.properties, p.WrittenAs (f p))
    (hts : Outlined ts [b.outline f]) (hend : headKind r [] = .eof) :
    Template.parser.Yields r ts fun t _ =>
      ∃ found, t.blocks = [.style found] ∧ found.unplaced = b.unplaced := by
  obtain ⟨front, newline, inner, rfl, hfront, hnewline, hinner⟩ := hts.single
  obtain ⟨word, heading, rfl, hword, -, hheading⟩ := hfront.cons
  have hblock : Block.parser.Yields r (word :: heading ++ newline :: inner) fun y rest =>
      (∃ found, y = .style found ∧ found.unplaced = b.unplaced) ∧ rest = [] := by
    refine .bind (.here fun position => .bind (.kind ?_))
    rw [cons_append, headD_cons, hword]
    refine .bind (.advance (.bind ?_))
    have hnext : headKind r [] ≠ .indent := by
      rw [hend]
      exact TokenKind.noConfusion
    have hread := reads_back h hf hheading hnewline hinner hnext position
    rw [append_nil] at hread
    refine hread.leaves fun found hfound => ?_
    exact .pure ⟨⟨found, rfl, hfound⟩, rfl⟩
  refine .bind (.here fun position => .bind (.bounded ?_))
  refine .manyWhile_cons (decide_eq_true ?_) (hblock.weaken ?_)
  · rw [hword]
    exact TokenKind.noConfusion
  · rintro _ rest ⟨⟨found, rfl, hfound⟩, rfl⟩
    have hnothing : decide ((headD [] r.ending.token).kind ≠ .eof) = false :=
      decide_eq_false fun hne => hne hend
    exact .manyWhile_done hnothing (.pure ⟨found, rfl, hfound⟩) _

end Blocks

/-- A style block of a template is written and read again. What comes back is this block alone, apart
from the places in it. -/
theorem StyleBlock.read_source {file source : String} {t : Template}
    (h : Template.read file source = .ok t) {b : StyleBlock} (hb : b ∈ t.styleBlocks) {width : Nat}
    (hwidth : 0 < width) (other : String) :
    ∃ found position, Template.read other (b.source width) = .ok ⟨[.style found], position⟩ ∧
      found.unplaced = b.unplaced := by
  have hspelled := Template.isSpelled_of_read h hb
  -- A value keeps no record of its tokens, so for each property some way to write it is chosen.
  have hwritten : ∀ p : Property, p.IsSpelled → ∃ ws, p.WrittenAs ws := fun p hp =>
    hp.value.elim fun v hv => ⟨_, v, hv, rfl⟩
  choose! f hf using hwritten
  have hproperties : ∀ rule ∈ b.rules, ∀ p ∈ rule.properties, p.WrittenAs (f p) :=
    fun rule hrule p hp => hf p ((hspelled.rules rule hrule).properties p hp)
  have hchars : (b.outline f).chars width 0 = (b.source width).toList :=
    chars_outline (fun rule hrule => (hspelled.rules rule hrule).selectors)
      fun rule hrule p hp => (hproperties rule hrule p hp).line_eq
  obtain ⟨hheading, hnext⟩ := flows_heading hspelled
  obtain ⟨ts, eof, hscan, heof, hts⟩ :=
    Outline.scan_style hheading hnext (allFlowing_rules hspelled hproperties) hwidth other
  have hsource : Scan.of other (b.source width) = ⟨ts, .eof eof⟩ := by
    rw [← hscan, ← String.ofList_toList (s := b.source width), ← hchars]
    rfl
  obtain ⟨⟨_, position⟩, rest, hread, found, rfl, hfound⟩ :=
    reads_template (r := ⟨other, .eof eof, Format.split⟩) hspelled hproperties hts heof
  refine ⟨found, position, ?_, hfound⟩
  simp only [Template.read, Session.read, Session.start, hsource, hread]

/-- Blanks stand here where they need not, and a value has signs of every sort in it. -/
def panelStyles : String :=
  "css(accent = 'It\\'s', wide):\n" ++
  "    a.tall.wide:hover , .menu\n" ++
  "      font:12px / 1.5   \"Fira Sans\" ,serif\n" ++
  "      width : calc( 100% - var(--gap , 4px) ) ! important\n" ++
  "      content:\n" ++
  "    li"

def panelBlock : StyleBlock where
  params := [⟨"accent", some "'It\\'s'", {}⟩, ⟨"wide", none, {}⟩]
  rules :=
    [⟨[⟨"a", ["tall", "wide"], "hover"⟩, ⟨"", ["menu"], ""⟩],
        [⟨"font", "12px/1.5 \"Fira Sans\", serif"⟩,
          ⟨"width", "calc(100% - var(--gap, 4px)) !important"⟩, ⟨"content", ""⟩], {}⟩,
      ⟨[⟨"li", [], ""⟩], [], {}⟩]

def panelSource : String :=
  "css(accent='It\\'s', wide):\n" ++
  "  a.tall.wide:hover, .menu\n" ++
  "    font: 12px/1.5 \"Fira Sans\", serif\n" ++
  "    width: calc(100% - var(--gap, 4px)) !important\n" ++
  "    content: \n" ++
  "  li\n"

theorem panelStyles_read_source : ∃ t b,
    Template.read "panel" panelStyles = .ok t ∧ b ∈ t.styleBlocks ∧ b.unplaced = panelBlock ∧
    b.source 2 = panelSource ∧
    ∃ found position, Template.read "" (b.source 2) = .ok ⟨[.style found], position⟩ ∧
      found.unplaced = b.unplaced := by
  have hcheck : ((Template.read "panel" panelStyles).toOption.any fun t => t.styleBlocks.any fun b =>
      b.unplaced = panelBlock ∧ b.source 2 = panelSource) = true := by
    decide +kernel
  obtain ⟨t, hread, hblocks⟩ := exists_of_toOption hcheck
  obtain ⟨b, hb, hfound⟩ := List.any_eq_true.mp hblocks
  obtain ⟨hblock, hsource⟩ := of_decide_eq_true hfound
  exact ⟨t, b, hread, hb, hblock, hsource, StyleBlock.read_source hread hb (by decide) ""⟩

end Stencil
