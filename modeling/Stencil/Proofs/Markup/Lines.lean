import Stencil.Proofs.Expr.Lines
import Stencil.Proofs.Markup.Printing

/-!
# Written markup as lines of tokens

Every line of a template that has a text is scanned into the tokens it was written with.
-/
namespace Stencil

open Written List String Bool
open Text (isDigit isLetter)

/-! ## Names and literals -/

theorem isNumeralRest_of_parts {digits : List Char} (h : digits.all isNumberPart) :
    Script.isNumeralRest digits := by
  induction digits with
  | nil => rfl
  | cons c cs ih =>
    obtain ⟨hc, hcs⟩ := and_eq_true_iff.mp h
    have hdot : c ≠ '.' := by
      rintro rfl
      cases hc
    rw [Script.isNumeralRest.eq_3 c cs (fun d s hdot' => absurd hdot' hdot), ih hcs, Bool.and_true]
    simpa [isNumberPart] using hc

theorem line_piece (part : String) : line (Written.piece part) = part.toList := by
  rw [Written.piece]
  split
  · exact line_single _ _
  · have hwhole := takeWhile_append_dropWhile (p := isNumberPart) (l := part.toList)
    dsimp only
    split
    · next hempty =>
      rw [isEmpty_iff.mp hempty, append_nil] at hwhole
      rw [line_single, toList_ofList, hwhole]
    · rw [← singleton_append, line_append, line_single, line_single, toList_ofList,
        toList_ofList, hwhole]

variable {part : String} {xs : List Written} {c : ClassClause} {classes : List ClassClause}
  {k : Keyword}

theorem isPart_front (h : isPart part) : ∃ c cs, part.toList = c :: cs ∧ Lexeme.isNamePart c ∧
      cs.all Lexeme.isNamePart := by
  rw [isPart, and_eq_true, not_eq_true'] at h
  cases hchars : part.toList with
  | nil =>
    rw [toList_eq_nil_iff] at hchars
    simp [hchars] at h
  | cons c cs =>
    have hall := h.2
    rw [hchars, all_cons, and_eq_true] at hall
    exact ⟨c, cs, rfl, hall⟩

theorem isWordText_ofList {c : Char} {cs : List Char} (hc : isLetter c)
    (hcs : cs.all Lexeme.isNamePart) : isWordText (ofList (c :: cs)) := by
  rw [isWordText, toList_ofList]
  dsimp only
  rw [hc, hcs]
  rfl

/-- What follows a dash is a word, or digits with or without a word after them. -/
theorem piece_cases (h : isPart part) :
    (isWordText part ∧ piece part = [.mark (.ofWord part) part]) ∨
      (∃ digits, Script.isNumeral digits ∧ piece part = [.mark .number digits]) ∨
      ∃ digits w c cs, Script.isNumeral digits ∧ isWordText w ∧
        w.toList = c :: cs ∧ isNumberPart c = false ∧
        piece part = [.mark .number digits, .mark (.ofWord w) w] := by
  obtain ⟨c, cs, hfront, hc, hcs⟩ := isPart_front h
  rw [piece]
  by_cases hword : isWordText part
  · rw [if_pos hword]
    exact .inl ⟨hword, rfl⟩
  · have hletter : isLetter c = false := by
      rw [eq_false_iff]
      intro hletter
      have hwhole := isWordText_ofList hletter hcs
      rw [← hfront, ofList_toList] at hwhole
      exact hword hwhole
    have hdigit : isDigit c := by rwa [Lexeme.isNamePart, hletter, Bool.false_or] at hc
    have hpart : isNumberPart c := by rw [isNumberPart, hdigit, Bool.true_or]
    have hdigits :
        Script.isNumeral (ofList (part.toList.takeWhile isNumberPart)) := by
      rw [Script.isNumeral, toList_ofList, hfront, takeWhile_cons_of_pos hpart]
      dsimp only
      rw [hdigit, isNumeralRest_of_parts (all_takeWhile)]
      rfl
    rw [if_neg hword]
    dsimp only
    cases hrest : part.toList.dropWhile isNumberPart with
    | nil => exact .inr (.inl ⟨_, hdigits, rfl⟩)
    | cons d ds =>
      have hd : isNumberPart d = false := by
        have hhead := head?_dropWhile_not isNumberPart part.toList
        rw [hrest] at hhead
        exact hhead
      have hall : ∀ e ∈ d :: ds, Lexeme.isNamePart e := by
        intro e he
        rw [← hrest] at he
        have hmem := (dropWhile_suffix isNumberPart).subset he
        rw [hfront] at hmem
        rcases mem_cons.mp hmem with rfl | hlater
        · exact hc
        · exact all_eq_true.mp hcs e hlater
      obtain ⟨hpart', htail⟩ := forall_mem_cons.mp hall
      have hletter' : isLetter d := by
        rw [isNumberPart, or_eq_false_iff] at hd
        rwa [Lexeme.isNamePart, hd.1, Bool.or_false] at hpart'
      refine .inr (.inr ⟨_, _, d, ds, hdigits, ?_, toList_ofList, hd, rfl⟩)
      exact isWordText_ofList hletter' (all_eq_true.mpr htail)

theorem isDashedName_cases {name : String} (h : isDashedName name) :
    ∃ (first : String) (parts : List String), Written.dashed name = .mark (.ofWord first) first ::
        parts.flatMap (fun part => .mark .dash "-" :: Written.piece part) ∧
      isWordText first ∧
      ∀ part ∈ parts, isPart part := by
  rw [isDashedName] at h
  rw [Written.dashed]
  split at h
  · cases h
  · next first parts _ =>
    obtain ⟨hfirst, hlater⟩ := and_eq_true_iff.mp h
    exact ⟨first, parts, rfl, hfirst, all_eq_true.mp hlater⟩

/-- Such a name starts with a letter. -/
theorem line_dashed_front {name : String} (h : isDashedName name) :
    ∃ c cs, line (dashed name) = c :: cs ∧ isLetter c := by
  obtain ⟨first, parts, hname, hfirst, _⟩ := isDashedName_cases h
  obtain ⟨c, cs, hcs, hc, _⟩ := isWordText_cases hfirst
  rw [hname, ← singleton_append, line_append, line_single, hcs]
  exact ⟨c, _, rfl, hc⟩

theorem isQuotedText_cases {literal : String} (h : isQuotedText literal) :
    ∃ quote cs, literal = ofList (quote :: cs) ∧ (quote = '"' ∨ quote = '\'') ∧
      isStringText literal ∧ ∃ ds, literal.toList = ds ++ [quote] := by
  rw [isQuotedText] at h
  split at h
  · cases h
  · next quote cs hcs =>
    simp only [Bool.and_eq_true, Bool.or_eq_true, decide_eq_true_eq] at h
    obtain ⟨⟨hquote, hclosed⟩, hascii⟩ := h
    rw [isAsciiText, hcs, all_cons, Bool.and_eq_true] at hascii
    have hliteral : literal = ofList (quote :: cs) := by rw [← hcs, String.ofList_toList]
    obtain ⟨ds, hlast⟩ := exists_quote_last hclosed
    refine ⟨quote, cs, hliteral, hquote, ?_, quote :: ds, by rw [hcs, hlast, cons_append]⟩
    rw [hliteral]
    exact isStringText_ascii hquote hclosed fun c hc =>
      of_decide_eq_true (all_eq_true.mp hascii.2 c hc)

theorem isClear_enclose (b : Bracket) (ws : List Written) (rest : List Char) :
    isClear (line (Written.enclose b ws) ++ rest) := by
  have hline : line (Written.enclose b ws) = b.opening :: (line ws ++ [b.closing]) := by
    rw [Written.enclose, cons_append]
    simp [line, Written.chars, opening, closing]
  rw [hline]
  cases b <;> rfl

namespace Scans

variable {before after : List Bracket} {xs ys : List Written} {p q : Bool} {w : String}
  {items : List (List Written)}

theorem name (h : isName w) : Scans before [identifier w] before := by
  obtain ⟨hword, hfree⟩ := Bool.and_eq_true_iff.mp h
  have hkind : TokenKind.ofWord w = .identifier := by
    rw [TokenKind.ofWord, Option.isNone_iff_eq_none.mp hfree]
  have hscans : Scans before [.mark (.ofWord w) w] before :=
    word hword (by rw [hkind]; exact TokenKind.noConfusion)
  rw [hkind] at hscans
  exact hscans

/-- What may be left out goes right after what stands before it. -/
theorem append_opt (hxs : Scans before xs after p)
    (hys : ys = [] ∨ (Scans after ys after q ∧ ∀ rest, isClear rest → isClear (line ys ++ rest))) :
    Scans before (xs ++ ys) after p := by
  rcases hys with rfl | ⟨hys, hclear⟩
  · rw [append_nil]
    exact hxs
  · exact hxs.append hys hclear

theorem listed (hne : items ≠ []) (h : ∀ item ∈ items, Scans before item before false) :
    Scans before (Written.listed items) before false := by
  induction items with
  | nil => exact absurd rfl hne
  | cons item items ih =>
    obtain ⟨hitem, hitems⟩ := forall_mem_cons.mp h
    cases items with
    | nil => exact hitem
    | cons other items => exact hitem.comma (ih (cons_ne_nil _ _) hitems)

/-- A list in brackets that may be left out. -/
theorem append_enclosed (hxs : Scans before xs after p) (b : Bracket)
    (h : ∀ item ∈ items, Scans (b :: after) item (b :: after) false) :
    Scans before (xs ++ enclosed b items) after p := by
  refine hxs.append_opt (q := true) ?_
  cases items with
  | nil => exact .inl rfl
  | cons item items =>
    refine .inr ⟨?_, fun rest _ => isClear_enclose b _ rest⟩
    exact .enclose b (.inr (listed (cons_ne_nil _ _) h))

/-- A heading ends with a colon. -/
theorem heading (hxs : Scans before xs after p) : Scans before (xs ++ [colon]) after p := by
  have hcolon : Scans after [colon] after := by
    refine solid (fun l levels rest hl _ hrest => ?_) (by decide) (by decide)
    exact @Lexer.On.sign l .plain levels after ':' [] rest .colon hl (fun _ => rfl) (by decide) rfl
      (fun c hc => (isClear_front hrest c hc).1) rfl
  exact hxs.append hcolon fun rest _ => rfl

/-! ### Names with dashes -/

/-- Digits right in front of a word. -/
theorem numeral_word {digits : String} {c : Char} {cs : List Char}
    (hdigits : Script.isNumeral digits) (hw : isWordText w)
    (hfront : w.toList = c :: cs) (hc : isNumberPart c = false) :
    Scans before [.mark .number digits, .mark (.ofWord w) w] before false := by
  have hnumber : Scans before [.mark .number digits] before := numeral hdigits
  have hword : Scans before [.mark (.ofWord w) w] before false := innerWord hw
  have hletter : isLetter c := by
    obtain ⟨d, ds, hds, hd, -⟩ := isWordText_cases hw
    rwa [(cons.inj (hfront.symm.trans hds)).1]
  have hends (rest : List Char) : endsNumber (w.toList ++ rest) := by
    have hdot : c ≠ '.' := by
      rintro rfl
      cases hletter
    rw [hfront, cons_append, endsNumber.eq_3 _ _ (fun d ds hc => absurd hc hdot),
      isApart_of_isLetter hletter, Bool.and_true]
    simpa [isNumberPart] using hc
  refine of_ends (fun l levels rest hl _ _ => ?_) hnumber.first hnumber.front hword.ends
  rw [line_single, line_single] at hl
  rw [line_single]
  exact hl.numeral hdigits (hends rest)

theorem piece {part : String} (h : isPart part) :
    Scans before (Written.piece part) before false := by
  rcases piece_cases h with ⟨hword, hpiece⟩ | ⟨digits, hdigits, hpiece⟩ |
    ⟨digits, w, c, cs, hdigits, hword, hfront, hc, hpiece⟩ <;> rw [hpiece]
  · exact innerWord hword
  · exact (numeral hdigits).inner
  · exact numeral_word hdigits hword hfront hc

/-- The parts of a name stand right after each other. -/
theorem append_parts (hxs : Scans before xs after p) {parts : List String}
    (h : ∀ part ∈ parts, isPart part) :
    Scans before (xs ++ parts.flatMap fun part => .mark .dash "-" :: Written.piece part) after
      p := by
  induction parts generalizing xs with
  | nil =>
    rw [flatMap_nil, append_nil]
    exact hxs
  | cons part parts ih =>
    obtain ⟨hpart, hparts⟩ := forall_mem_cons.mp h
    obtain ⟨c, cs, hfront, hc, _⟩ := isPart_front hpart
    have hnext : Lexeme.operator '-' (some c) = some (.dash, 1) := by
      have hne : c ≠ '>' := ne_of_isNamePart hc rfl
      simp [Lexeme.operator, hne]
    have hpiece : Scans after (.mark .dash "-" :: Written.piece part) after :=
      tight (c := '-') rfl (by decide) hnext (piece hpart)
        ((line_piece part).trans hfront)
    rw [List.flatMap_cons, ← List.append_assoc]
    exact ih (hxs.append hpiece fun rest _ => rfl) hparts

/-- A name with dashes, anywhere but at the start of a line. -/
theorem dashed {name : String} (h : isDashedName name) :
    Scans before (Written.dashed name) before false := by
  obtain ⟨first, parts, hname, hfirst, hparts⟩ := isDashedName_cases h
  rw [hname]
  exact (innerWord hfirst).append_parts hparts

end Scans

/-! ## An expression after an equals sign -/

/-- The line does not start with an equals sign. -/
def Distinct (ws : List Written) : Prop := ∃ c cs, line ws = c :: cs ∧ c ≠ '='

namespace Distinct

variable {ws ws' : List Written}

theorem append (h : Distinct ws) : Distinct (ws ++ ws') := by
  obtain ⟨c, cs, hc, hne⟩ := h
  exact ⟨c, cs ++ line ws', by rw [line_append, hc, cons_append], hne⟩

theorem enclose (b : Bracket) (ws : List Written) : Distinct (enclose b ws) := by
  refine ⟨b.opening, line (ws ++ [closing b]), ?_, by cases b <;> decide⟩
  cases b <;> rfl

theorem encloseIf (h : Distinct ws) (needed : Bool) : Distinct (encloseIf needed ws) := by
  cases needed with
  | true => exact enclose .paren ws
  | false => exact h

theorem string (text : List Char) (ws : List Written) : Distinct (Written.string text :: ws) := by
  refine ⟨'"', text.flatMap Literal.escape ++ ['"'] ++ line ws, ?_, by decide⟩
  rw [← singleton_append, line_append, Written.string, line_single, quote_toList, cons_append]

theorem word (k : Keyword) (ws : List Written) : Distinct (Written.word k :: ws) := by
  have hfront : ∃ c cs, k.text.toList = c :: cs ∧ c ≠ '=' := by
    cases k <;> exact ⟨_, _, rfl, by decide⟩
  obtain ⟨c, cs, hc, hne⟩ := hfront
  refine ⟨c, cs ++ line ws, ?_, hne⟩
  rw [← singleton_append, line_append, Written.word, line_single, hc, cons_append]

theorem single {kind : TokenKind} {text : String} {c : Char} {cs : List Char}
    (htext : text.toList = c :: cs) (hc : Lexeme.isNamePart c) :
    Distinct [.mark kind text] :=
  ⟨c, cs, (line_single _ _).trans htext, ne_of_isNamePart hc rfl⟩

end Distinct

theorem Expr.distinct_written (e : Expr) (h : e.isWritable) (least : Nat) :
    Distinct (e.written least) := by
  cases e with
  | name p name =>
    obtain ⟨c, cs, hcs, hc, _⟩ := isWordText_cases (Bool.and_eq_true_iff.mp h).1
    exact .single hcs (by rw [Lexeme.isNamePart, hc]; rfl)
  | number p digits =>
    obtain ⟨c, cs, hcs, hc, _⟩ := isNumeral_front h
    exact .single hcs (by rw [Lexeme.isNamePart, hc, Bool.or_true])
  | string p value => exact .string _ _
  | format p segments => exact .string _ _
  | dictionary | list => exact .enclose _ _
  | new | not => exact .encloseIf (.word _ _) _
  | «attribute» p left | item p left | call p left | arithmetic p op left | relation p op left
  | and p left | or p left =>
    have hleft := (Bool.and_eq_true_iff.mp h).1
    first
      | exact .encloseIf (left.distinct_written hleft _).append _
      | exact .encloseIf (left.distinct_written hleft _).append.append _

/-- An equals sign right in front of what stands after it. -/
theorem Scans.equals {before after : List Bracket} {q : Bool} (hxs : Scans before xs after q)
    (h : Distinct xs) : Scans before (Written.equals :: xs) after := by
  obtain ⟨c, cs, hc, hne⟩ := h
  exact .tight (c := '=') rfl (by decide) (by simp [Lexeme.operator, hne]) hxs hc

/-! ## Parts of lines -/

theorem operates_equals : Scans.Operates .equals "=" :=
  .sign (c := '=') rfl (by decide) rfl rfl

theorem operates_arrow : Scans.Operates .arrow "->" :=
  .sign (c := '-') rfl (by decide) (by decide) rfl

variable {before : List Bracket}

theorem Param.scans {x : Param} (h : x.isWritable) : Scans before x.written before := by
  obtain ⟨hname, hfallback⟩ := Bool.and_eq_true_iff.mp h
  refine (Scans.name hname).append_opt (q := true) ?_
  cases hliteral : x.fallback with
  | none => exact .inl rfl
  | some literal =>
    rw [hliteral] at hfallback
    obtain ⟨quote, cs, rfl, hquote, htext, ds, hlast⟩ := isQuotedText_cases hfallback
    have hsolid : isSolid quote := by
      rcases hquote with rfl | rfl <;> decide
    refine .inr ⟨(Scans.literal htext hlast hsolid).equals ?_, fun rest _ => rfl⟩
    refine ⟨quote, cs, by rw [line_single, String.toList_ofList], ?_⟩
    rcases hquote with rfl | rfl <;> decide

theorem ClassClause.scans (h : c.isWritable) : Scans before c.written before := by
  obtain ⟨hname, hcondition⟩ := Bool.and_eq_true_iff.mp h
  obtain ⟨d, ds, hd, _⟩ := line_dashed_front hname
  have hdot : Scans before (.mark .dot "." :: dashed c.name) before :=
    .tight (c := '.') rfl (by decide) rfl (.dashed hname) hd
  refine hdot.append_opt (q := true) ?_
  cases hx : c.condition with
  | none => exact .inl rfl
  | some x =>
    rw [hx] at hcondition
    have hparen : Scans before (enclose .paren (x.written 0)) before :=
      .enclose .paren (.inr (x.scans hcondition 0 _).inner)
    refine .inr ⟨?_, fun rest _ => rfl⟩
    exact .tight (c := '?') rfl (by decide) rfl hparen rfl

/-- A class goes right after a name. -/
theorem ClassClause.isClear_written (h : c.isWritable) (rest : List Char) :
    isClear (line c.written ++ rest) := by
  obtain ⟨d, ds, hd, hletter⟩ := line_dashed_front (Bool.and_eq_true_iff.mp h).1
  have hdigit : isDigit d = false := by
    rw [Bool.eq_false_iff]
    intro hdigit
    rw [not_isLetter_of_isDigit hdigit] at hletter
    cases hletter
  have hline : line (.mark .dot "." :: dashed c.name) = '.' :: d :: ds := congrArg ('.' :: ·) hd
  rw [ClassClause.written, line_append, hline]
  simp [isClear, hdigit, isApart_of_isLetter hletter]

theorem scans_attribute {a : String × Expr} (h : attributeWritable a) :
    Scans before (writtenAttribute a) before false := by
  obtain ⟨hname, hvalue⟩ := Bool.and_eq_true_iff.mp h
  exact (Scans.dashed hname).append
    ((a.2.scans hvalue 0 before).equals (a.2.distinct_written hvalue 0)) fun rest _ => rfl

theorem scans_classes (hxs : Scans before xs before) (h : ∀ c ∈ classes, c.isWritable) :
    Scans before (xs ++ classes.flatMap ClassClause.written) before := by
  induction classes generalizing xs with
  | nil =>
    rw [flatMap_nil, append_nil]
    exact hxs
  | cons c classes ih =>
    obtain ⟨hc, hclasses⟩ := forall_mem_cons.mp h
    rw [List.flatMap_cons, ← List.append_assoc]
    exact ih (hxs.append (ClassClause.scans hc) fun rest _ => ClassClause.isClear_written hc rest)
      hclasses

theorem scans_element {name : String} {attributes : List (String × Expr)}
    (hname : isName name) (hclasses : classes.all ClassClause.isWritable)
    (hattributes : attributes.all attributeWritable) :
    Scans before (writtenElement name classes attributes) before := by
  refine (scans_classes (.name hname) (all_eq_true.mp hclasses)).append_enclosed .square ?_
  intro item hitem
  obtain ⟨a, ha, rfl⟩ := mem_map.mp hitem
  exact scans_attribute (all_eq_true.mp hattributes a ha)

theorem LinkTarget.scans {t : LinkTarget} (h : t.isWritable) : Scans before t.written before := by
  obtain ⟨htarget, hvalue⟩ := Bool.and_eq_true_iff.mp h
  rw [LinkTarget.written]
  cases hx : t.value with
  | none => exact t.target.scans htarget 0 before
  | some value =>
    rw [hx] at hvalue
    exact .joined operates_arrow (value.scans hvalue 0 before) (t.target.scans htarget 0 before)

theorem scans_filtered {name : String} {filter : Option Expr} (hname : isName name)
    (hfilter : filter.all Expr.isWritable) :
    Scans before (writtenFiltered name filter) before := by
  refine (Scans.name hname).append_opt (q := true) ?_
  cases filter with
  | none => exact .inl rfl
  | some x =>
    refine .inr ⟨?_, fun rest _ => rfl⟩
    exact .enclose .square (.inr (x.scans hfilter 0 _).inner)

theorem LinkEntry.scans {e : LinkEntry} (h : e.isWritable) : Scans before e.written before := by
  simp only [LinkEntry.isWritable, Bool.and_eq_true] at h
  obtain ⟨⟨hmember, hfilter⟩, hrenamed⟩ := h
  refine (scans_filtered hmember hfilter).append_opt (q := true) ?_
  cases hname : e.renamed with
  | none => exact .inl rfl
  | some name =>
    rw [hname] at hrenamed
    have hcolon : Scans.Operates .colon ":" := .sign (c := ':') rfl (by decide) rfl rfl
    exact .inr ⟨(Scans.name hrenamed).operator hcolon, fun rest _ => rfl⟩

/-- A list in brackets, also an empty one. -/
theorem scans_enclose_listed (b : Bracket) {α : Type} {xs : List α} {f : α → List Written}
    (h : ∀ x ∈ xs, Scans (b :: before) (f x) (b :: before)) :
    Scans before (enclose b (listed (xs.map f))) before := by
  cases xs with
  | nil => exact .enclose b (.inl rfl)
  | cons x xs =>
    refine .enclose b (.inr (.listed (cons_ne_nil _ _) fun item hitem => ?_))
    obtain ⟨y, hy, rfl⟩ := mem_map.mp hitem
    exact (h y hy).inner

theorem Link.scans {x : Link} (h : x.isWritable) : Scans before x.written before := by
  cases x with
  | single event filter target =>
    simp only [Link.isWritable, and_eq_true] at h
    exact .joined operates_equals (scans_filtered h.1.1 h.1.2) (LinkTarget.scans h.2)
  | multi entries target =>
    obtain ⟨hentries, htarget⟩ := and_eq_true_iff.mp h
    refine .joined operates_equals (scans_enclose_listed .brace fun e he => ?_)
      (LinkTarget.scans htarget)
    exact LinkEntry.scans (all_eq_true.mp hentries e he)

theorem ImportName.scans {n : ImportName} (h : n.isWritable) : Scans before n.written before := by
  obtain ⟨hname, hrenamed⟩ := and_eq_true_iff.mp h
  rw [ImportName.written]
  cases hx : n.renamed with
  | none => exact .name hname
  | some renamed =>
    rw [hx] at hrenamed
    exact .joined (.keyword (by decide)) (.name hname) (.name hrenamed)

theorem scans_binding (hk : k ≠ .css) {name : String} (hname : isName name) {value : Expr}
    (hvalue : value.isWritable) : Scans before (writtenBinding k name value) before :=
  (Scans.joined operates_equals (.name hname) (value.scans hvalue 0 before)).operator (.keyword hk)

theorem scans_branch (hk : k ≠ .css) {condition : Expr} (h : condition.isWritable) :
    Scans before (writtenBranch k condition) before :=
  ((condition.scans h 0 before).operator (.keyword hk)).heading

theorem scans_loop {name : String} (hname : isName name) {items : Expr}
    (hitems : items.isWritable) : Scans before (writtenLoop name items) before :=
  ((Scans.joined (.keyword (by decide)) (.name hname) (items.scans hitems 0 before)).operator
    (.keyword (by decide))).heading

theorem scans_import {imported : List Written} (h : Scans before imported before) {source : String}
    (hsource : isAsciiText source) : Scans before (writtenImport imported source) before :=
  (Scans.joined (.keyword (by decide)) h (.string (isStringText_quote hsource))).operator
    (.keyword (by decide))

theorem scans_links {links : List Link} (hne : links ≠ []) (h : ∀ x ∈ links, x.isWritable) :
    Scans before (word .link :: .blank :: listed (links.map Link.written)) before := by
  have hlinks : Scans before (listed (links.map Link.written)) before false := by
    refine .listed (by simpa using hne) fun item hitem => ?_
    obtain ⟨x, hx, rfl⟩ := mem_map.mp hitem
    exact (Link.scans (h x hx)).inner
  exact hlinks.operator (.keyword (by decide))

theorem MarkupBlock.scans {b : MarkupBlock} (layout : Layout) (h : b.isWritable) :
    Scans before (b.written layout) before := by
  simp only [MarkupBlock.isWritable, and_eq_true] at h
  obtain ⟨⟨⟨⟨hname, hparams⟩, hevents⟩, _⟩, _⟩ := h
  have hfront : Scans before (identifier b.name :: enclosed .paren (b.params.map Param.written))
      before := by
    refine (Scans.name hname).append_enclosed .paren fun item hitem => ?_
    obtain ⟨x, hx, rfl⟩ := mem_map.mp hitem
    exact (Param.scans (all_eq_true.mp hparams x hx)).inner
  have hnamed : Scans before ((if layout.heading then [word .html, .blank] else []) ++
      (identifier b.name :: enclosed .paren (b.params.map Param.written))) before := by
    split
    · exact hfront.operator (.keyword (by decide))
    · exact hfront
  refine Scans.heading ?_
  by_cases hempty : b.events.isEmpty
  · rw [if_pos hempty, append_nil]
    exact hnamed
  · have hlist : Scans before (listed (b.events.map fun e => [identifier e])) before false := by
      refine .listed (by simpa using hempty) fun item hitem => ?_
      obtain ⟨event, hevent, rfl⟩ := mem_map.mp hitem
      exact (Scans.name (all_eq_true.mp hevents event hevent)).inner
    rw [if_neg hempty]
    exact hnamed.append_blank (hlist.operator (.keyword (by decide)))

/-! ## Outlines -/

theorem Layout.inlineText?_eq_some (layout : Layout) {body : List Statement}
    {segments : List Segment} (h : layout.inlineText? body = some segments) :
    ∃ p, body = [.text p segments] := by
  rw [Layout.inlineText?.eq_def] at h
  split at h
  · next p found =>
    split at h
    · cases h
      exact ⟨p, rfl⟩
    · cases h
  · cases h

open Outline (AllScannable allScannable_append)

namespace Statement

/-! The body of the last branch is only found by cases. -/

theorem outline_choice (layout : Layout) (p : Position) (branches : List (Expr × List Statement))
    (otherwise : Option (List Statement)) :
    (choice p branches otherwise).outline layout = outlineBranches layout .«if» branches ++
      otherwise.elim [] fun body => [.line [word .«else», colon] (outlineAll layout body)] := by
  cases otherwise <;> rfl

theorem isWritable_choice {p : Position} {branches : List (Expr × List Statement)}
    {otherwise : Option (List Statement)} (h : (choice p branches otherwise).isWritable) :
    branches ≠ [] ∧ branchesWritable branches ∧ otherwise.all bodyWritable := by
  cases otherwise with
  | none =>
    simp only [isWritable, and_eq_true] at h
    exact ⟨by simpa using h.1.1, h.1.2, rfl⟩
  | some body =>
    simp only [isWritable, and_eq_true] at h
    exact ⟨by simpa using h.1.1, h.1.2, h.2⟩

mutual

theorem scannable_outline (layout : Layout) (s : Statement) (h : s.isWritable) :
    AllScannable (s.outline layout) := by
  cases s with
  | element p name classes attributes body =>
    simp only [isWritable, and_eq_true] at h
    obtain ⟨⟨⟨hname, hclasses⟩, hattributes⟩, hbody⟩ := h
    have hhead : Scans [] (writtenElement name classes attributes) [] :=
      scans_element hname hclasses hattributes
    rw [outline]
    cases hinline : layout.inlineText? body with
    | none => exact ⟨⟨hhead, scannable_body layout body hbody⟩, trivial⟩
    | some segments =>
      obtain ⟨p, rfl⟩ := layout.inlineText?_eq_some hinline
      have htext := (and_eq_true_iff.mp (and_eq_true_iff.mp hbody).1).2
      exact ⟨⟨hhead.append_blank (.string htext), trivial⟩, trivial⟩
  | text p segments => exact ⟨⟨.string (and_eq_true_iff.mp h).2, trivial⟩, trivial⟩
  | output p value =>
    exact ⟨⟨(value.scans h 0 []).operator operates_equals, trivial⟩, trivial⟩
  | store p name value | binding p name value =>
    obtain ⟨hname, hvalue⟩ := and_eq_true_iff.mp h
    exact ⟨⟨scans_binding (by decide) hname hvalue, trivial⟩, trivial⟩
  | link p links =>
    obtain ⟨hne, hlinks⟩ := and_eq_true_iff.mp h
    refine ⟨⟨scans_links ?_ (all_eq_true.mp hlinks), trivial⟩, trivial⟩
    simpa using hne
  | choice p branches otherwise =>
    obtain ⟨_, hwritable, hotherwise⟩ := isWritable_choice h
    have hbranches := scannable_branches layout branches hwritable (k := .«if») (by decide)
    rw [outline_choice]
    refine allScannable_append hbranches ?_
    cases otherwise with
    | none => exact trivial
    | some body =>
      have hbody := scannable_body layout body hotherwise
      exact ⟨⟨(Scans.keyword (by decide)).heading, hbody⟩, trivial⟩
  | loop p name items body =>
    simp only [isWritable, and_eq_true] at h
    exact ⟨⟨scans_loop h.1.1 h.1.2, scannable_body layout body h.2⟩, trivial⟩

theorem scannable_body (layout : Layout) (body : List Statement) (h : bodyWritable body) :
    AllScannable (outlineAll layout body) := by
  cases body with
  | nil => exact trivial
  | cons s rest =>
    obtain ⟨hs, hrest⟩ := and_eq_true_iff.mp h
    exact allScannable_append (scannable_outline layout s hs) (scannable_body layout rest hrest)

theorem scannable_branches (layout : Layout) (branches : List (Expr × List Statement))
    (h : branchesWritable branches) {k : Keyword} (hk : k ≠ .css) :
    AllScannable (outlineBranches layout k branches) := by
  cases branches with
  | nil => exact trivial
  | cons branch rest =>
    obtain ⟨condition, body⟩ := branch
    simp only [branchesWritable, and_eq_true] at h
    exact ⟨⟨scans_branch hk h.1.1, scannable_body layout body h.1.2⟩,
      scannable_branches layout rest h.2 (by decide)⟩

end

end Statement

theorem Block.scannable_outline (layout : Layout) {b : Block} (h : b.isWritable) :
    AllScannable (b.outline layout) := by
  cases b with
  | style b => cases h
  | markup b =>
    have hb : b.isWritable := h
    have hbody := hb
    simp only [MarkupBlock.isWritable, and_eq_true] at hbody
    exact ⟨⟨b.scans layout hb, Statement.scannable_body layout b.body hbody.1.2⟩, trivial⟩
  | importModule name source p =>
    obtain ⟨hname, hsource⟩ := and_eq_true_iff.mp h
    exact ⟨⟨scans_import (.name hname) hsource, trivial⟩, trivial⟩
  | importNames names source p =>
    obtain ⟨hnames, hsource⟩ := and_eq_true_iff.mp h
    refine ⟨⟨scans_import (scans_enclose_listed .brace fun n hn => ?_) hsource, trivial⟩, trivial⟩
    exact ImportName.scans (all_eq_true.mp hnames n hn)

theorem scannable_blocks (layout : Layout) {blocks : List Block} (h : ∀ b ∈ blocks, b.isWritable) :
    AllScannable (blocks.flatMap (Block.outline layout)) := by
  induction blocks with
  | nil => exact trivial
  | cons b blocks ih =>
    obtain ⟨hb, hblocks⟩ := forall_mem_cons.mp h
    rw [flatMap_cons]
    exact allScannable_append (Block.scannable_outline layout hb) (ih hblocks)

end Stencil
