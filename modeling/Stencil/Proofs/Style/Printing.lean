import Stencil.Proofs.Markup.Printing
import Stencil.Proofs.Style.Outline

/-!
# Style blocks as they are written

A style block is written as a heading with its parameters, a line for the selectors of each rule and
a line for each property under it. The text of a block that was read from a source is the text of an
outline, and no two words in it run together.
-/
namespace Stencil

open Written (line enclose listed enclosed colon equals first line_cons_mark line_single line_append)
open List Lexeme
open String (toList_append)

/-! ## Texts -/

/-- A parameter with its default value as it was written. -/
def Param.source (p : Param) : String := p.name ++ p.fallback.elim "" ("=" ++ ·)

def Property.source (p : Property) : String := p.name ++ ": " ++ p.value

/-- A line with a margin. -/
def marginLine (margin : Nat) (text : String) : String :=
  String.ofList (List.replicate margin ' ') ++ text ++ "\n"

/-- The selectors of a rule, and its properties one level deeper. -/
def Rule.source (width : Nat) (r : Rule) : String :=
  marginLine width (", ".intercalate (r.selectors.map Selector.text)) ++
    String.join (r.properties.map fun p => marginLine (2 * width) p.source)

def StyleBlock.heading (b : StyleBlock) : String :=
  "css" ++ (if b.params.isEmpty then "" else
    "(" ++ ", ".intercalate (b.params.map Param.source) ++ ")") ++ ":"

/-- The block as it is written, with so many spaces for each level. -/
def StyleBlock.source (width : Nat) (b : StyleBlock) : String :=
  marginLine 0 b.heading ++ String.join (b.rules.map (Rule.source width))

/-! ## Blocks without their places -/

def Rule.unplaced (r : Rule) : Rule := { r with position := {} }

def StyleBlock.unplaced (b : StyleBlock) : StyleBlock :=
  ⟨b.params.map Param.unplaced, b.rules.map Rule.unplaced, {}⟩

/-! ## Tokens -/

/-- The part of a selector behind its word. -/
def Selector.stateWritten (state : String) : List Written :=
  if state.isEmpty then [] else [colon, .mark .styleWord state]

/-- A selector is one word, but for a dot in front of it and a state behind it. -/
def Selector.written (s : Selector) : List Written :=
  (if s.element.isEmpty then [.mark .dot "."] else []) ++
    .mark .styleWord (".".intercalate s.parts) :: stateWritten s.state

def Rule.written (r : Rule) : List Written := listed (r.selectors.map Selector.written)

def StyleBlock.headingWritten (b : StyleBlock) : List Written :=
  enclosed .paren (b.params.map (Param.writtenOf .styleWord)) ++ [colon]

/-- A property is written with a value whose text is its own. -/
def Property.WrittenAs (p : Property) (ws : List Written) : Prop :=
  ∃ v : StyleValue, p.value.toList = line (v.written true) ∧
    ws = .mark .styleWord p.name :: colon :: .blank :: v.written true

/-- The outline of a block, by how its properties are written. -/
def StyleBlock.outline (f : Property → List Written) (b : StyleBlock) : Outline :=
  .line (Written.word .css :: b.headingWritten)
    (b.rules.map fun r => .line r.written (r.properties.map fun p => .line (f p) []))

/-- A list starts with its first item. -/
theorem Written.exists_listed (item : List Written) (items : List (List Written)) :
    ∃ rest, listed (item :: items) = item ++ rest := by
  cases items with
  | nil => exact ⟨[], (append_nil item).symm⟩
  | cons other items => exact ⟨_, append_assoc item comma (listed (other :: items))⟩

variable {α : Type} {r : Rule} {ws : List Written} {text : String} {b : StyleBlock}

/-- A list is written with commas between its items. -/
theorem Written.line_listed {xs : List α} {f : α → List Written} {g : α → String}
    (h : ∀ x ∈ xs, line (f x) = (g x).toList) :
    line (listed (xs.map f)) = (", ".intercalate (xs.map g)).toList := by
  induction xs with
  | nil => rfl
  | cons x xs ih =>
    obtain ⟨hx, hxs⟩ := forall_mem_cons.mp h
    cases xs with
    | nil => rw [map_singleton, map_singleton, String.intercalate_singleton, ← hx]; rfl
    | cons y xs =>
      have hlisted : listed ((x :: y :: xs).map f) = f x ++ comma ++ listed ((y :: xs).map f) := rfl
      have hmap : (x :: y :: xs).map g = g x :: g y :: xs.map g := rfl
      rw [hlisted, line_append, line_append, ih hxs, hx, hmap, String.intercalate_cons_cons,
        toList_append, toList_append]
      rfl

theorem Param.line_writtenOf (kind : TokenKind) (p : Param) :
    line (p.writtenOf kind) = p.source.toList := by
  obtain ⟨name, fallback, position⟩ := p
  cases fallback with
  | none => rw [Param.writtenOf, line_cons_mark, Param.source, toList_append]; rfl
  | some literal =>
    have hfallback : line [equals, .mark .string literal] = '=' :: literal.toList := by
      rw [equals, line_cons_mark, line_single]
      rfl
    rw [Param.writtenOf, line_cons_mark, Param.source, toList_append]
    simp only [Option.elim_some, hfallback, toList_append]
    rfl

/-- Parts with dots between them, with a dot in front of each but the first. -/
theorem intercalate_dots (part : String) (parts : List String) :
    ".".intercalate (part :: parts) = part ++ String.join (parts.map ("." ++ ·)) := by
  induction parts generalizing part with
  | nil => rw [String.intercalate_singleton, map_nil, String.join_nil, String.append_empty]
  | cons other parts ih =>
    rw [String.intercalate_cons_cons, ih, map_cons, String.join_cons, String.append_assoc,
      String.append_assoc]

namespace Selector

variable {s : Selector}

theorem areSpelled_of_isSpelled (h : s.isSpelled) :
    AreSpelled s.parts ∧ (s.state.isEmpty || isStyleWordText s.state) := by
  rw [isSpelled, Bool.and_eq_true, Bool.and_eq_true, all_eq_true] at h
  exact h

theorem line_written (h : s.isSpelled) : line s.written = s.text.toList := by
  obtain ⟨element, classes, state⟩ := s
  have hparts := (areSpelled_of_isSpelled h).1
  have hstate : line (stateWritten state) =
      (if state.isEmpty then "" else ":" ++ state).toList := by
    rw [stateWritten]
    split
    · rfl
    · rw [colon, line_cons_mark, line_single, toList_append]
  rw [written, line_append, line_cons_mark, hstate, text, toList_append,
    ← append_assoc]
  congr 1
  rw [parts] at hparts ⊢
  dsimp only at hparts ⊢
  by_cases hempty : element.isEmpty
  · rw [if_pos hempty] at hparts
    rw [if_pos hempty, if_pos hempty, line_single, String.isEmpty_iff.mp hempty]
    cases classes with
    | nil => cases hparts.1
    | cons first rest =>
      rw [intercalate_dots, ← toList_append, map_cons, String.join_cons,
        String.append_assoc, String.empty_append]
  · rw [if_neg hempty, if_neg hempty, intercalate_dots]
    rfl

/-- The parts of a selector make one word. -/
theorem isStyleWordText_parts (h : s.isSpelled) : isStyleWordText (".".intercalate s.parts) := by
  obtain ⟨hhead, hall⟩ := (areSpelled_of_isSpelled h).1
  cases hparts : s.parts with
  | nil =>
    rw [hparts] at hhead
    cases hhead
  | cons part parts =>
    rw [hparts] at hhead hall
    have hchars : ∀ part, isClassText part →
        ∀ c ∈ part.toList, isStyleWordChar c := by
      intro part hpart c hc
      have hclass := all_eq_true.mp (Bool.and_eq_true_iff.mp hpart).2 c hc
      exact (Bool.and_eq_true_iff.mp hclass).2
    obtain ⟨hpart, hparts⟩ := forall_mem_cons.mp hall
    rw [intercalate_dots, isStyleWordText, toList_append, String.toList_join,
      Bool.and_eq_true, all_eq_true]
    constructor
    · rw [head?_cons, Option.any_some] at hhead
      cases hfirst : part.toList with
      | nil =>
        rw [hfirst] at hhead
        cases hhead
      | cons c cs =>
        rw [hfirst] at hhead
        exact hhead
    · refine forall_mem_append.mpr ⟨hchars part hpart, fun c hc => ?_⟩
      obtain ⟨text, htext, hc⟩ := mem_flatMap.mp hc
      obtain ⟨other, hother, rfl⟩ := mem_map.mp htext
      rw [toList_append, mem_append] at hc
      rcases hc with hdot | hc
      · rw [mem_singleton.mp hdot]
        rfl
      · exact hchars other (hparts other hother) c hc

end Selector

theorem Rule.line_written (h : ∀ s ∈ r.selectors, s.isSpelled) :
    line r.written = (", ".intercalate (r.selectors.map Selector.text)).toList :=
  Written.line_listed fun s hs => Selector.line_written (h s hs)

theorem StyleBlock.line_heading (b : StyleBlock) :
    line (Written.word .css :: b.headingWritten) = b.heading.toList := by
  have hlist := @Written.line_listed _ b.params _ _ fun p _ => Param.line_writtenOf .styleWord p
  rw [Written.word, line_cons_mark, headingWritten, heading, line_append,
    toList_append, toList_append, ← append_assoc]
  congr 1
  · congr 1
    rw [enclosed]
    cases hparams : b.params with
    | nil => rfl
    | cons p params =>
      rw [hparams] at hlist
      rw [if_neg (by simp), if_neg (by simp), Written.line_enclose, hlist, toList_append,
        toList_append]
      rfl

theorem Property.WrittenAs.line_eq {p : Property} (h : p.WrittenAs ws) :
    line ws = p.source.toList := by
  obtain ⟨v, hvalue, rfl⟩ := h
  have hline : line (colon :: .blank :: v.written true) = ": ".toList ++ line (v.written true) := rfl
  rw [line_cons_mark, hline, ← hvalue, source, toList_append, toList_append,
    append_assoc]

/-- The text of lines one after another. -/
theorem Outline.charsAll_map (f : α → Outline) (width depth : Nat) (xs : List α) :
    charsAll width depth (xs.map f) = xs.flatMap fun x => (f x).chars width depth := by
  induction xs with
  | nil => rfl
  | cons x xs ih => rw [map_cons, charsAll, ih, flatMap_cons]

theorem toList_marginLine (margin : Nat) (text : String) :
    (marginLine margin text).toList = replicate margin ' ' ++ (text.toList ++ ['\n']) := by
  rw [marginLine, toList_append, toList_append, String.toList_ofList, append_assoc]
  rfl

section Sources

variable {f : Property → List Written} {width : Nat}

theorem Rule.chars_outline {r : Rule} (hselectors : ∀ s ∈ r.selectors, s.isSpelled)
    (hf : ∀ p ∈ r.properties, line (f p) = p.source.toList) :
    Outline.chars width 1 (.line r.written (r.properties.map fun p => .line (f p) [])) =
      (r.source width).toList := by
  have hproperties : (r.properties.flatMap fun p => Outline.chars width 2 (.line (f p) [])) =
      r.properties.flatMap fun p => (marginLine (2 * width) p.source).toList := by
    refine flatMap_congr fun p hp => ?_
    rw [Outline.chars, Outline.charsAll, hf p hp, toList_marginLine]
  rw [Outline.chars, Outline.charsAll_map, hproperties, Rule.line_written hselectors, source,
    toList_append, toList_marginLine, String.toList_join, flatMap_map, Nat.one_mul,
    append_assoc, append_assoc]
  rfl

theorem StyleBlock.chars_outline {b : StyleBlock}
    (hselectors : ∀ r ∈ b.rules, ∀ s ∈ r.selectors, s.isSpelled)
    (hf : ∀ r ∈ b.rules, ∀ p ∈ r.properties, line (f p) = p.source.toList) :
    (b.outline f).chars width 0 = (b.source width).toList := by
  have hrules : (b.rules.flatMap fun r => Outline.chars width 1
      (.line r.written (r.properties.map fun p => .line (f p) []))) =
        b.rules.flatMap fun r => (r.source width).toList :=
    flatMap_congr fun r hr => Rule.chars_outline (hselectors r hr) (hf r hr)
  rw [outline, Outline.chars, Outline.charsAll_map, hrules, line_heading, source,
    toList_append, toList_marginLine, String.toList_join, flatMap_map, Nat.zero_mul,
    append_assoc, append_assoc]
  rfl

end Sources

/-! ## Words that do not run together -/

/-- A value, a parameter or a selector ends here. -/
def Stopped (ws : List Written) : Prop :=
  first ws = ',' ∨ first ws = ')' ∨ first ws = '\n'

theorem Stopped.clear (h : Stopped ws) :
    isStyleWordPart (first ws) = false ∧ first ws ≠ '=' ∧
      first ws ≠ ' ' := by
  rcases h with h | h | h <;> rw [h] <;> decide

theorem Written.first_mark {c : Char} {cs : List Char} (h : text.toList = c :: cs)
    (kind : TokenKind) (ws : List Written) : first (.mark kind text :: ws) = c := by
  rw [first, line_cons_mark, h]
  rfl

theorem Written.first_word (h : isStyleWordText text) (kind : TokenKind) (ws : List Written)
    : isStyleWordStart (first (.mark kind text :: ws)) := by
  obtain ⟨c, cs, hcs, hc⟩ := exists_start_of_isStyleWordText h
  rwa [first_mark hcs]

section Flowing

variable {brackets : List Bracket} {ws : List Written}

theorem Flows.gap (glued : Bool) (h : Flows brackets ws) (hfirst : first ws ≠ ' ') :
    Flows brackets (Written.gap glued ++ ws) := by
  cases glued with
  | true => exact h
  | false => exact .blank h hfirst

theorem StyleLiteral.flows (x : StyleLiteral) (h : Flows brackets ws)
    (hnext : isStyleWordPart (first ws) = false) :
    Flows brackets (x.written :: ws) := by
  cases x with
  | word text spelled => exact .word h spelled hnext
  | string text spelled => exact .string h spelled

theorem StyleLiteral.first_written (x : StyleLiteral) (ws : List Written) :
    first (x.written :: ws) ≠ ' ' ∧ first (x.written :: ws) ≠ '=' := by
  cases x with
  | word text spelled =>
    obtain ⟨c, cs, hcs, hc⟩ := exists_start_of_isStyleWordText spelled
    have hfirst : first ((word text spelled).written :: ws) = c :=
      Written.first_mark hcs _ _
    rw [hfirst]
    constructor
    · rintro rfl
      cases hc
    · rintro rfl
      cases hc
  | string text spelled =>
    obtain ⟨c, cs, hcs, hc⟩ := isStringText_front spelled
    have hfirst : first ((string text spelled).written :: ws) = c :=
      Written.first_mark hcs _ _
    rw [hfirst]
    rcases hc with rfl | rfl <;> decide

theorem StyleSign.first_written (s : StyleSign) (ws : List Written) :
    first (s.written :: ws) = s.char :=
  Written.first_mark (String.toList_singleton _) _ _

/-- What a value starts with, in front of what ends it. -/
theorem StyleValue.first_written (v : StyleValue) (glued : Bool) (hstop : Stopped ws) :
    first (v.written glued ++ ws) ≠ '=' ∧
      (glued → first (v.written glued ++ ws) ≠ ' ') ∧
      (glued = false → Lexeme.isStyleWordPart (first (v.written glued ++ ws)) = false) := by
  obtain ⟨hpart, hequals, hblank⟩ := hstop.clear
  have hgap : ∀ ws, Lexeme.isStyleWordPart (first (.blank :: ws)) = false ∧
      first (.blank :: ws) ≠ '=' := fun ws => by
    rw [show first (.blank :: ws) = ' ' from rfl]
    decide
  have hliteral : ∀ (x : StyleLiteral) (ws : List Written),
      first (Written.gap glued ++ x.written :: ws) ≠ '=' ∧
        (glued → first (Written.gap glued ++ x.written :: ws) ≠ ' ') ∧
        (glued = false →
          Lexeme.isStyleWordPart (first (Written.gap glued ++ x.written :: ws)) = false) := by
    intro x ws
    obtain ⟨hspace, hsign⟩ := x.first_written ws
    cases glued with
    | true => exact ⟨hsign, fun _ => hspace, Bool.noConfusion⟩
    | false => exact ⟨(hgap _).2, Bool.noConfusion, fun _ => (hgap _).1⟩
  cases v with
  | done => exact ⟨hequals, fun _ => hblank, fun _ => hpart⟩
  | word x rest =>
    rw [written, append_assoc]
    exact hliteral x _
  | call x inner rest =>
    rw [written, append_assoc]
    exact hliteral x _
  | sign s rest =>
    rw [written, append_assoc]
    have hchar := s.first_written (rest.written s.glues ++ ws)
    cases glued with
    | true =>
      rw [show Written.gap (true || !s.leads) ++ (s.written :: rest.written s.glues ++ ws) =
        s.written :: (rest.written s.glues ++ ws) from rfl, hchar]
      cases s <;> decide
    | false =>
      cases hs : s.leads with
      | true => exact ⟨(hgap _).2, Bool.noConfusion, fun _ => (hgap _).1⟩
      | false =>
        rw [show Written.gap (false || !false) ++ (s.written :: rest.written s.glues ++ ws) =
          s.written :: (rest.written s.glues ++ ws) from rfl, hchar]
        cases s with
        | comma | slash => decide
        | dot | mark => cases hs

theorem StyleValue.flows (v : StyleValue) (glued : Bool) (h : Flows brackets ws)
    (hstop : Stopped ws) : Flows brackets (v.written glued ++ ws) := by
  induction v generalizing glued brackets ws with
  | done => exact h
  | word x rest ih =>
    have hlater := ih false h hstop
    have hnext := (rest.first_written false hstop).2.2 rfl
    rw [written, append_assoc]
    exact (x.flows hlater hnext).gap glued (x.first_written _).1
  | call x inner rest ihInner ihRest =>
    have hlater := ihRest false h hstop
    have hclose : Stopped (Written.closing .paren :: (rest.written false ++ ws)) :=
      .inr (.inl rfl)
    have hinner := ihInner true (.closing .paren hlater) hclose
    have hword : Flows brackets (x.written :: Written.opening .paren ::
        (inner.written true ++ Written.closing .paren :: (rest.written false ++ ws))) :=
      x.flows (.opening .paren hinner) rfl
    have hwhole := hword.gap glued (x.first_written _).1
    simpa [written, enclose] using hwhole
  | sign s rest ih =>
    have hlater := ih s.glues h hstop
    have hnext := (rest.first_written s.glues hstop).1
    have hsign : Lexeme.operator s.char (some (first (rest.written s.glues ++ ws))) =
        some (s.kind, 1) := by
      cases s with
      | comma | slash | dot => rfl
      | mark =>
        simp only [StyleSign.char, Lexeme.operator]
        rw [if_neg fun heq => hnext (Option.some.inj heq)]
        rfl
    have hflows : Flows brackets (s.written :: (rest.written s.glues ++ ws)) :=
      .sign hlater (String.toList_singleton _) (by cases s <;> decide) hsign
    rw [written, append_assoc]
    refine hflows.gap _ ?_
    rw [s.first_written]
    cases s <;> decide

/-- The colon in front of a value or of a state. -/
theorem Flows.colon (h : Flows brackets ws) : Flows brackets (colon :: ws) :=
  .sign (c := ':') h rfl (by decide) rfl

theorem Property.WrittenAs.flows {p : Property} (hp : p.IsSpelled) (h : p.WrittenAs ws) :
    Flows [] ws := by
  obtain ⟨v, -, rfl⟩ := h
  have hstop : Stopped [] := .inr (.inr rfl)
  have hvalue := v.flows true .done hstop
  have hfirst := (v.first_written true hstop).2.1 rfl
  rw [append_nil] at hvalue hfirst
  exact .word (.colon (.blank hvalue hfirst)) hp.name rfl

namespace Selector

variable {s : Selector}

theorem first_written (hs : s.isSpelled) (ws : List Written) :
    isSolid (first (s.written ++ ws)) := by
  rw [written]
  split
  · rfl
  · exact isSolid_of_isStyleWordStart (Written.first_word (isStyleWordText_parts hs) _ _)

theorem flows (hs : s.isSpelled) (h : Flows brackets ws) (hstop : Stopped ws) :
    Flows brackets (s.written ++ ws) := by
  have hstate := (areSpelled_of_isSpelled hs).2
  -- The state comes last, so the words are put in front of it one by one.
  have hlast : ∃ back, stateWritten s.state ++ ws = back ∧ Flows brackets back ∧
      Lexeme.isStyleWordPart (first back) = false := by
    refine ⟨_, rfl, ?_⟩
    rw [stateWritten]
    split
    · exact ⟨h, hstop.clear.1⟩
    · next hne =>
      have hword := (Bool.or_eq_true_iff.mp hstate).resolve_left hne
      exact ⟨.colon (.word h hword hstop.clear.1), rfl⟩
  obtain ⟨back, hback, hflows, hnext⟩ := hlast
  have hword := Flows.word hflows (isStyleWordText_parts hs) hnext
  rw [written, append_assoc, cons_append, hback]
  split
  · exact .sign (c := '.') hword rfl (by decide) rfl
  · exact hword

end Selector

theorem Param.flows {p : Param} (hp : p.IsSpelled) (h : Flows brackets ws) (hstop : Stopped ws) :
    Flows brackets (p.writtenOf .styleWord ++ ws) := by
  rw [writtenOf, cons_append]
  cases hdefault : p.fallback with
  | none => exact .word h hp.name hstop.clear.1
  | some literal =>
    have hliteral := hp.fallback literal hdefault
    have hstring := Flows.string h hliteral
    obtain ⟨c, cs, hcs, hc⟩ := isStringText_front hliteral
    have hsign : operator '=' (some (first (.mark .string literal :: ws))) =
        some (.equals, 1) := by
      rw [Written.first_mark hcs]
      rcases hc with rfl | rfl <;> rfl
    exact .word (.sign hstring rfl (by decide) hsign) hp.name rfl

/-- Items with commas between them. -/
theorem Flows.listed {α : Type} {xs : List α} {f : α → List Written}
    (hitem : ∀ x ∈ xs, ∀ ws, Flows brackets ws → Stopped ws → Flows brackets (f x ++ ws))
    (hfirst : ∀ x ∈ xs, ∀ ws, first (f x ++ ws) ≠ ' ') (h : Flows brackets ws)
    (hstop : Stopped ws) : Flows brackets (listed (xs.map f) ++ ws) := by
  induction xs with
  | nil => exact h
  | cons x xs ih =>
    obtain ⟨hx, hxs⟩ := forall_mem_cons.mp hitem
    obtain ⟨-, hfirsts⟩ := forall_mem_cons.mp hfirst
    cases xs with
    | nil => exact hx ws h hstop
    | cons y xs =>
      have hlater := ih hxs hfirsts
      have hblank : first (Written.listed ((y :: xs).map f) ++ ws) ≠ ' ' := by
        obtain ⟨rest, hrest⟩ := Written.exists_listed (f y) (xs.map f)
        rw [map_cons, hrest, append_assoc]
        exact hfirsts y mem_cons_self _
      have hcomma : Flows brackets
          (Written.comma ++ (Written.listed ((y :: xs).map f) ++ ws)) :=
        .sign (c := ',') (.blank hlater hblank) rfl (by decide) rfl
      have hwhole := hx _ hcomma (.inl rfl)
      rwa [← append_assoc, ← append_assoc] at hwhole

end Flowing

theorem StyleBlock.flows_heading (h : b.IsSpelled) :
    Flows [] b.headingWritten ∧ isNamePart (first b.headingWritten) = false := by
  have hend : Flows [] [colon] := .colon .done
  rw [headingWritten, enclosed]
  split
  · exact ⟨hend, rfl⟩
  · have hlist : Flows [.paren] (listed (b.params.map (Param.writtenOf .styleWord)) ++
        Written.closing .paren :: [colon]) := by
      refine .listed (fun p hp ws => Param.flows (h.params p hp)) (fun p hp ws => ?_)
        (.closing .paren hend) (.inr (.inl rfl))
      have hstart : isStyleWordStart (first (p.writtenOf .styleWord ++ ws)) :=
        Written.first_word (h.params p hp).name _ _
      intro hblank
      rw [hblank] at hstart
      cases hstart
    refine ⟨?_, rfl⟩
    have hwhole := Flows.opening .paren hlist
    simpa [enclose] using hwhole

theorem Rule.flows (h : r.IsSpelled) :
    Flows [] r.written ∧ isSolid (first r.written) := by
  have hstart : ∀ s ∈ r.selectors, ∀ ws, isSolid (first (s.written ++ ws)) :=
    fun s hs ws => Selector.first_written (h.selectors s hs) ws
  have hlist : Flows [] (listed (r.selectors.map Selector.written) ++ []) := by
    refine .listed (fun s hs ws => Selector.flows (h.selectors s hs)) (fun s hs ws hblank => ?_)
      .done (.inr (.inr rfl))
    have htoken := hstart s hs ws
    rw [hblank] at htoken
    cases htoken
  rw [append_nil] at hlist
  refine ⟨hlist, ?_⟩
  obtain ⟨s, others, hselectors⟩ := exists_cons_of_ne_nil h.named
  obtain ⟨rest, hrest⟩ := Written.exists_listed s.written (others.map Selector.written)
  rw [hselectors] at hstart
  rw [written, hselectors, map_cons, hrest]
  exact hstart s mem_cons_self rest

theorem Outline.allFlowing_map {g : α → Outline} {xs : List α} (h : ∀ x ∈ xs, (g x).Flowing) :
    AllFlowing (xs.map g) := by
  induction xs with
  | nil => exact trivial
  | cons x xs ih =>
    obtain ⟨hx, hxs⟩ := forall_mem_cons.mp h
    exact ⟨hx, ih hxs⟩

/-- No line of a block runs together. -/
theorem StyleBlock.allFlowing_rules {f : Property → List Written} (h : b.IsSpelled)
    (hf : ∀ r ∈ b.rules, ∀ p ∈ r.properties, p.WrittenAs (f p)) :
    Outline.AllFlowing (b.rules.map fun r =>
      .line r.written (r.properties.map fun p => .line (f p) [])) := by
  refine Outline.allFlowing_map fun r hr => ⟨Rule.flows (h.rules r hr), ?_⟩
  refine Outline.allFlowing_map fun p hp => ⟨⟨?_, ?_⟩, trivial⟩
  · exact (hf r hr p hp).flows ((h.rules r hr).properties p hp)
  · obtain ⟨v, -, hws⟩ := hf r hr p hp
    rw [hws]
    exact isSolid_of_isStyleWordStart
      (Written.first_word ((h.rules r hr).properties p hp).name _ _)

end Stencil
