import Stencil.Proofs.Expr.RoundTrip
import Stencil.Proofs.Markup.Lines

/-!
# Reading lines of markup

The tokens of a line are read as what was written on it: parameters, classes, attributes, links and
imports. A reader of a part takes just the tokens of that part, as long as what follows it cannot
belong to it.
-/
namespace Stencil

open Written (line stamps stamps_append map_fst_stamps enclose identifier colon equals listed
  enclosed dashed piece word)
open Stencil.Expr (Stops headKind isWord_of_isWordText)
open Stencil.Parser List

/-! ## Ends of expressions -/

namespace Expr.Stops

theorem colon : Stops 0 .colon :=
  of_joining (fun j hj _ => by interval_cases j <;> rfl) (by simp) (by simp)

theorem arrow : Stops 0 .arrow :=
  of_joining (fun j hj _ => by interval_cases j <;> rfl) (by simp) (by simp)

end Expr.Stops

/-! ## Readers of parts of a line -/

namespace Parser

variable {α β : Type} {r : Reading} {ends : TokenKind → Prop} {xs : List α} {b : Bracket}
  {item : Parser α} {more : Token → Bool} {f : α → List Written} {u : α → β}

/-- A list in brackets that may be left out. -/
theorem reads_enclosed (hopens : ∀ x ∈ xs, Opens more (f x))
    (hitem : ∀ x ∈ xs, item.Reads r ends (f x) fun y => u y = u x) (hcomma : ends .comma)
    (hclosing : ends (.closing b)) (hmore : ∀ t : Token, t.kind = .closing b → more t = false) :
    Reads (do
      if ← accept (.opening b) then
        let ys ← commaList more item
        let _ ← expect (.closing b)
        return ys
      else return []) r (· ≠ .opening b) (enclosed b (xs.map f)) fun ys =>
        ys.map u = xs.map u := by
  intro ts tail hts htail
  cases xs with
  | nil =>
    rw [Stands.nil hts]
    exact .bind (.accept_other htail (.pure ⟨rfl, rfl⟩))
  | cons x xs =>
    obtain ⟨first, middle, last, rfl, hfirst, hlast, hmiddle⟩ := Stands.enclose hts
    rw [cons_append, append_assoc]
    refine .bind (.accept hfirst ?_)
    refine yields_closedList hmiddle hlast hopens hitem hcomma hclosing hmore fun ys hys => ?_
    exact .pure ⟨hys, rfl⟩

end Parser

/-! ### Items after each other -/

namespace Parser.Yields

variable {α : Type} {item : Parser α} {r : Reading} {more : Token → Bool} {ts : List Token}
  {Q : List α → List Token → Prop}

theorem manyWhile_done (hmore : more (ts.headD r.ending.token) = false) (h : Q [] ts)
    (rounds : Nat) : (manyWhile more item rounds).Yields r ts Q := by
  cases rounds with
  | zero => exact .exhausted (.pure h)
  | succ rounds =>
    refine .round (.bind (.current ?_))
    rw [hmore]
    exact .pure h

theorem manyWhile_cons {t : Token} {rounds : Nat} (hmore : more t)
    (h : item.Yields r (t :: ts) fun a rest =>
      (manyWhile more item rounds).Yields r rest fun as rest => Q (a :: as) rest) :
    (manyWhile more item (rounds + 1)).Yields r (t :: ts) Q := by
  refine .round (.bind (.current ?_))
  rw [headD_cons, if_pos hmore]
  refine .bind (h.weaken fun a rest has => .bind ((has.again _).weaken fun as rest hQ => ?_))
  exact .pure hQ

end Parser.Yields

/-! ## Names with dashes -/

/-- The kinds of tokens that may belong to a name with dashes. -/
def TokenKind.isNamed : TokenKind → Bool
  | .dash | .number | .identifier | .keyword _ => true
  | _ => false

variable {t : Token} {text : String} {r : Reading} {tail : List Token}

theorem not_isNamePiece (h : t.kind.isNamed = false) : isNamePiece t = false := by
  rw [isNamePiece, Token.isWord]
  cases hkind : t.kind <;> simp_all [TokenKind.isNamed]

/-- A token of a name, without blanks around it. -/
def Written.IsPiece (w : Written) : Prop :=
  ∃ kind text, w = .mark kind text ∧
    (kind = .dash ∨ kind = .number ∨ kind = .ofWord text ∧ isWordText text = true)

theorem isNamePiece_of_isPiece {kind : TokenKind} (h : Written.IsPiece (.mark kind text))
    (hkind : t.kind = kind) (htext : t.literal = text) : isNamePiece t := by
  obtain ⟨_, _, heq, hcases⟩ := h
  cases heq
  rcases hcases with rfl | rfl | ⟨hword, htext'⟩
  · simp [isNamePiece, hkind]
  · simp [isNamePiece, hkind]
  · subst htext
    have hisWord : t.isWord := isWord_of_isWordText (hkind.trans hword) htext'
    simp [isNamePiece, hisWord]

theorem Token.stop_eq (t : Token) : t.stop = t.offset + Text.byteSize t.literal.toList := by
  rw [Token.stop, ← Text.utf8ByteSize_ofList, String.ofList_toList]

/-- Tokens of a name that stand right after each other are taken together. -/
theorem yields_namePieces {ws : List Written} {offset rounds : Nat} {ts : List Token}
    (hws : ∀ w ∈ ws, w.IsPiece) (hts : ts.map Token.stamp = stamps offset ws)
    (hrounds : ts.length < rounds) (htail : (headKind r tail).isNamed = false) :
    (namePieces rounds offset).Yields r (ts ++ tail) fun name rest =>
      name.toList = line ws ∧ rest = tail := by
  induction ws generalizing ts offset rounds with
  | nil =>
    rw [map_eq_nil_iff.mp hts, nil_append]
    cases rounds with
    | zero => cases hrounds
    | succ rounds =>
      refine .round (.bind (.current ?_))
      rw [not_isNamePiece htail, Bool.and_false]
      exact .pure ⟨rfl, rfl⟩
  | cons w ws ih =>
    obtain ⟨hpiece, hlater⟩ := forall_mem_cons.mp hws
    have hmark := hpiece
    obtain ⟨kind, text, rfl, -⟩ := hmark
    obtain ⟨t, rest, rfl, ht, hrest⟩ := map_eq_cons_iff.mp hts
    cases ht
    cases rounds with
    | zero => cases hrounds
    | succ rounds =>
      have hlength : rest.length < rounds := Nat.lt_of_succ_lt_succ hrounds
      rw [← t.stop_eq] at hrest
      refine .round (.bind (.current ?_))
      rw [cons_append, headD_cons, isNamePiece_of_isPiece hpiece rfl rfl, decide_eq_true rfl]
      refine .bind (.advance (.bind (((ih hlater hrest hlength).again _).leaves ?_)))
      rintro name hname
      exact .pure ⟨by rw [String.toList_append, hname]; rfl, rfl⟩

theorem isPiece_dashed {parts : List String} (h : ∀ part ∈ parts, isPart part) :
    ∀ w ∈ parts.flatMap (fun part => .mark .dash "-" :: piece part), w.IsPiece := by
  intro w hw
  obtain ⟨part, hpart, hw⟩ := mem_flatMap.mp hw
  rcases mem_cons.mp hw with rfl | hw
  · exact ⟨_, _, rfl, .inl rfl⟩
  · rcases piece_cases (h part hpart) with ⟨hword, hpiece⟩ | ⟨digits, -, hpiece⟩ |
      ⟨digits, text, c, cs, -, hword, -, -, hpiece⟩ <;> rw [hpiece] at hw
    · rw [mem_singleton.mp hw]
      exact ⟨_, _, rfl, .inr (.inr ⟨rfl, hword⟩)⟩
    · rw [mem_singleton.mp hw]
      exact ⟨_, _, rfl, .inr (.inl rfl)⟩
    · rcases mem_pair.mp hw with rfl | rfl
      · exact ⟨_, _, rfl, .inr (.inl rfl)⟩
      · exact ⟨_, _, rfl, .inr (.inr ⟨rfl, hword⟩)⟩

/-- A text is made of its parts again. -/
theorem Text.splitChars_join (separator : Char) (cs : List Char) :
    ∃ part parts, Text.splitChars separator cs = part :: parts ∧
      part ++ parts.flatMap (separator :: ·) = cs := by
  induction cs with
  | nil => exact ⟨[], [], rfl, rfl⟩
  | cons c cs ih =>
    obtain ⟨part, parts, hsplit, hjoin⟩ := ih
    rw [Text.splitChars, hsplit]
    dsimp only
    split
    · next hc =>
      refine ⟨[], part :: parts, rfl, ?_⟩
      rw [nil_append, flatMap_cons, cons_append, hjoin, hc]
    · exact ⟨c :: part, parts, rfl, by rw [cons_append, hjoin]⟩

theorem line_dashed (name : String) : line (dashed name) = name.toList := by
  obtain ⟨part, parts, hsplit, hjoin⟩ := Text.splitChars_join '-' name.toList
  have hline : ∀ ps : List (List Char),
      line ((ps.map String.ofList).flatMap fun part => .mark .dash "-" :: piece part) =
        ps.flatMap ('-' :: ·) := by
    intro ps
    induction ps with
    | nil => rfl
    | cons p ps ih =>
      rw [map_cons, flatMap_cons, Written.line_append, ih, flatMap_cons,
        ← singleton_append, Written.line_append, line_piece, String.toList_ofList,
        Written.line_single]
      rfl
  rw [dashed, Text.split, hsplit, map_cons]
  dsimp only
  rw [← singleton_append, Written.line_append, Written.line_single, hline,
    String.toList_ofList, hjoin]

theorem reads_dashName (r : Reading) {name : String} (h : isDashedName name) :
    dashName.Reads r (·.isNamed = false) (dashed name) fun found => found = name := by
  intro ts tail hts htail
  have hline := line_dashed name
  obtain ⟨first, parts, hname, hfirst, hparts⟩ := isDashedName_cases h
  rw [hname] at hts hline
  obtain ⟨offset, hts⟩ := hts
  obtain ⟨t, rest, rfl, ht, hrest⟩ := map_eq_cons_iff.mp hts
  simp only [Token.stamp, Token.mark, Prod.mk.injEq] at ht
  obtain ⟨⟨hkind, rfl⟩, rfl⟩ := ht
  have hword : t.isWord := isWord_of_isWordText hkind hfirst
  rw [← t.stop_eq] at hrest
  refine .bind (.current ?_)
  rw [cons_append, headD_cons, if_pos hword]
  refine .bind (.advance (.bind (.bounded_append fun rounds hrounds => ?_)))
  refine (yields_namePieces (isPiece_dashed hparts) hrest hrounds htail).leaves ?_
  rintro later hlater
  have hwhole : (t.literal ++ later).toList = name.toList := by
    rw [String.toList_append, hlater, ← hline]
    rfl
  exact .pure ⟨String.toList_inj.mp hwhole, rfl⟩

/-! ## Parts with expressions -/

theorem Param.reads (r : Reading) (kind : TokenKind) (x : Param) :
    (Param.parser kind).Reads r (· ≠ .equals) (x.writtenOf kind) fun y =>
      y.unplaced = x.unplaced := by
  intro ts tail hts htail
  obtain ⟨name, fallback, position⟩ := x
  obtain ⟨t, rest, rfl, hkind, rfl, hrest⟩ := hts.cons
  refine .bind (.here fun p => .bind (.expect hkind (.bind ?_)))
  cases fallback with
  | none =>
    rw [hrest.nil]
    exact .accept_other htail (.pure ⟨rfl, rfl⟩)
  | some literal =>
    obtain ⟨sign, rest, rfl, hsign, -, hrest⟩ := hrest.cons
    obtain ⟨value, rfl, hvalue, rfl⟩ := hrest.single
    refine .accept hsign (.bind (.expect hvalue ?_))
    exact .pure ⟨rfl, rfl⟩

theorem reads_paramsOf (r : Reading) (kind : TokenKind) (hkind : kind ≠ .closing .paren)
    (params : List Param) :
    (Param.listParser kind).Reads r (· ≠ .opening .paren)
      (enclosed .paren (params.map (Param.writtenOf kind))) fun ys =>
        ys.map Param.unplaced = params.map Param.unplaced :=
  reads_enclosed (fun x _ => Opens.mark fun t ht _ => decide_eq_true ht)
    (fun x _ => Param.reads r kind x) (by simp) (by simp) fun t ht => by simp [ht, hkind.symm]

theorem reads_params (r : Reading) (params : List Param) :
    (Param.listParser .identifier).Reads r (· ≠ .opening .paren)
      (enclosed .paren (params.map Param.written)) fun ys =>
        ys.map Param.unplaced = params.map Param.unplaced :=
  reads_paramsOf r .identifier TokenKind.noConfusion params

section Expressions

variable {r : Reading} (hr : r.split = Format.split) {classes : List ClassClause}

include hr

theorem Expr.reads {e : Expr} (h : e.isWritable) :
    Expr.parser.Reads r (Stops 0) (e.written 0) fun x => x.unplaced = e.unplaced := by
  intro ts tail hts htail
  have hown : ReadsOwn r e := e.reads_own h (hr ▸ splitsBack_split h)
  exact .bounded_append fun depth hdepth => hown.whole hts hdepth htail

/-- An expression in brackets that may be left out. -/
theorem reads_filter {filter : Option Expr} (h : filter.all Expr.isWritable) :
    Link.filter.Reads r (· ≠ .opening .square)
      (filter.elim [] fun x => enclose .square (x.written 0)) fun found =>
        found.map Expr.unplaced = filter.map Expr.unplaced := by
  intro ts tail hts htail
  cases filter with
  | none =>
    rw [Stands.nil hts]
    exact .bind (.accept_other htail (.pure ⟨rfl, rfl⟩))
  | some x =>
    obtain ⟨first, middle, last, rfl, hfirst, hlast, hmiddle⟩ := Stands.enclose hts
    rw [cons_append, append_assoc]
    refine .bind (.accept hfirst ?_)
    refine (Expr.reads hr h).bind hmiddle (stops_cons hlast (.closing _)) fun y hy => ?_
    exact .bind (.expect hlast (.pure ⟨congrArg some hy, rfl⟩))

theorem ClassClause.reads {c : ClassClause} (h : c.isWritable) :
    ClassClause.parser.Reads r (fun k => k.isNamed = false ∧ k ≠ .question) c.written fun y =>
      y.unplaced = c.unplaced := by
  intro ts tail hts htail
  obtain ⟨name, condition⟩ := c
  obtain ⟨hname, hcondition⟩ := Bool.and_eq_true_iff.mp h
  obtain ⟨dot, rest, rfl, -, -, hrest⟩ := hts.cons
  obtain ⟨front, back, rfl, hfront, hback⟩ := Stands.append hrest
  refine .bind (.advance ?_)
  rw [cons_append, tail_cons, append_assoc]
  cases condition with
  | none =>
    rw [Stands.nil hback]
    refine (reads_dashName r hname).bind hfront htail.1 ?_
    rintro _ rfl
    exact .bind (.accept_other htail.2 (.pure ⟨rfl, rfl⟩))
  | some x =>
    obtain ⟨mark, back, rfl, hmark, -, hback⟩ := Stands.cons hback
    obtain ⟨first, middle, last, rfl, hfirst, hlast, hmiddle⟩ := hback.enclose
    simp only [cons_append, append_assoc, nil_append]
    refine (reads_dashName r hname).bind hfront (by rw [headKind_cons, hmark]; rfl) ?_
    rintro found rfl
    refine .bind (.accept hmark (.bind (.expect hfirst ?_)))
    refine (Expr.reads hr hcondition).bind hmiddle (stops_cons hlast (.closing _)) fun y hy => ?_
    have hclass : ClassClause.unplaced ⟨found, some y⟩ = ClassClause.unplaced ⟨found, some x⟩ :=
      congrArg (ClassClause.mk found <| some ·) hy
    exact .bind (.expect hlast (.pure ⟨hclass, rfl⟩))

omit hr in
theorem headKind_classes {ts : List Token} (h : Stands ts (classes.flatMap ClassClause.written))
    (tail : List Token) : headKind r (ts ++ tail) = .dot ∨ ts = [] := by
  cases classes with
  | nil => exact .inr h.nil
  | cons c classes =>
    obtain ⟨dot, rest, rfl, hdot, -, -⟩ := Stands.cons h
    exact .inl hdot

/-- Classes follow each other, each with a dot in front. -/
theorem reads_classes (h : ∀ c ∈ classes, c.isWritable) :
    (many (·.kind = .dot) ClassClause.parser).Reads r
      (fun k => k.isNamed = false ∧ k ≠ .question ∧ k ≠ .dot) (classes.flatMap ClassClause.written)
      fun ys => ys.map ClassClause.unplaced = classes.map ClassClause.unplaced := by
  intro ts tail hts htail
  have hfrom : ∀ rounds, ts.length < rounds →
      (manyWhile (·.kind = .dot) ClassClause.parser rounds).Yields r (ts ++ tail) fun ys rest =>
        ys.map ClassClause.unplaced = classes.map ClassClause.unplaced ∧ rest = tail := by
    induction classes generalizing ts with
    | nil =>
      intro rounds hrounds
      rw [Stands.nil hts, nil_append]
      refine .manyWhile_done ?_ ⟨rfl, rfl⟩ rounds
      exact decide_eq_false htail.2.2
    | cons c classes ih =>
      intro rounds hrounds
      obtain ⟨hc, hclasses⟩ := forall_mem_cons.mp h
      obtain ⟨front, back, rfl, hfront, hback⟩ := Stands.append hts
      have hends : (headKind r (back ++ tail)).isNamed = false ∧
          headKind r (back ++ tail) ≠ .question := by
        rcases headKind_classes hback tail with hdot | rfl
        · rw [hdot]
          exact ⟨rfl, TokenKind.noConfusion⟩
        · exact ⟨htail.1, htail.2.1⟩
      have hread := ClassClause.reads hr hc front (back ++ tail) hfront hends
      obtain ⟨dot, front, rfl, hdot, -, -⟩ := Stands.cons hfront
      rw [length_append, length_cons] at hrounds
      cases rounds with
      | zero => cases hrounds
      | succ rounds =>
        rw [append_assoc, cons_append]
        refine .manyWhile_cons (decide_eq_true hdot) (hread.leaves fun y hy => ?_)
        refine (ih hclasses back hback rounds (by omega)).leaves fun ys hys => ?_
        exact ⟨by rw [map_cons, hy, hys, map_cons], rfl⟩
  exact .bounded_append hfrom

theorem reads_attribute {a : String × Expr} (h : attributeWritable a) :
    attributeParser.Reads r (Stops 0) (writtenAttribute a) fun y =>
      unplacedAttribute y = unplacedAttribute a := by
  intro ts tail hts htail
  obtain ⟨hname, hvalue⟩ := Bool.and_eq_true_iff.mp h
  obtain ⟨front, back, rfl, hfront, hback⟩ := Stands.append hts
  obtain ⟨sign, rest, rfl, hsign, -, hrest⟩ := hback.cons
  rw [append_assoc, cons_append]
  refine (reads_dashName r hname).bind hfront (by rw [headKind_cons, hsign]; rfl) ?_
  rintro _ rfl
  refine .bind (.expect hsign ?_)
  refine (Expr.reads hr hvalue).bind hrest htail fun y hy => ?_
  exact .pure ⟨congrArg (Prod.mk a.1) hy, rfl⟩

theorem reads_attributes {attributes : List (String × Expr)}
    (h : ∀ a ∈ attributes, attributeWritable a) :
    attributesParser.Reads r (· ≠ .opening .square)
      (enclosed .square (attributes.map writtenAttribute)) fun ys =>
        ys.map unplacedAttribute = attributes.map unplacedAttribute := by
  refine reads_enclosed (fun a ha => ?_) (fun a ha => reads_attribute hr (h a ha)) .comma
    (.closing _) fun t ht => by simp [Token.isWord, ht]
  obtain ⟨first, parts, hname, hfirst, -⟩ :=
    isDashedName_cases (Bool.and_eq_true_iff.mp (h a ha)).1
  rw [writtenAttribute, hname]
  refine Opens.mark fun t hkind htext => ?_
  subst htext
  exact isWord_of_isWordText hkind hfirst

theorem LinkTarget.reads {t : LinkTarget} (h : t.isWritable) :
    Link.target.Reads r (fun k => Stops 0 k ∧ k ≠ .arrow) t.written fun y =>
      y.unplaced = t.unplaced := by
  intro ts tail hts htail
  obtain ⟨target, value⟩ := t
  obtain ⟨htarget, hvalue⟩ := Bool.and_eq_true_iff.mp h
  cases value with
  | none =>
    refine (Expr.reads hr htarget).bind hts htail.1 fun x hx => ?_
    have htarget : LinkTarget.unplaced ⟨x, none⟩ = LinkTarget.unplaced ⟨target, none⟩ :=
      congrArg (LinkTarget.mk · none) hx
    exact .bind (.accept_other htail.2 (.pure ⟨htarget, rfl⟩))
  | some value =>
    obtain ⟨front, arrow, back, rfl, harrow, hfront, hback⟩ := Stands.joined hts
    rw [append_assoc, cons_append]
    refine (Expr.reads hr hvalue).bind hfront (stops_cons harrow .arrow) fun x hx => ?_
    refine .bind (.accept harrow ?_)
    refine (Expr.reads hr htarget).bind hback htail.1 fun y hy => ?_
    have hboth : LinkTarget.unplaced ⟨y, some x⟩ = LinkTarget.unplaced ⟨target, some value⟩ :=
      congrArg₂ LinkTarget.mk hy (congrArg some hx)
    exact .pure ⟨hboth, rfl⟩

theorem LinkEntry.reads {e : LinkEntry} (h : e.isWritable) :
    Link.entry.Reads r (fun k => k ≠ .opening .square ∧ k ≠ .colon) e.written fun y =>
      y.unplaced = e.unplaced := by
  intro ts tail hts htail
  obtain ⟨member, filter, renamed⟩ := e
  simp only [LinkEntry.isWritable, Bool.and_eq_true] at h
  obtain ⟨t, rest, rfl, ht, rfl, hrest⟩ := hts.cons
  obtain ⟨front, back, rfl, hfront, hback⟩ := Stands.append hrest
  rw [cons_append, append_assoc]
  refine .bind (.expect ht ?_)
  cases renamed with
  | none =>
    rw [Stands.nil hback]
    refine (reads_filter hr h.1.2).bind hfront htail.1 fun found hfound => ?_
    refine .bind (.accept_other htail.2 (.pure ⟨?_, rfl⟩))
    exact congrArg (LinkEntry.mk t.literal · none) hfound
  | some name =>
    obtain ⟨colon, back, rfl, hcolon, -, hback⟩ := Stands.cons hback
    obtain ⟨other, rfl, hother, rfl⟩ := hback.blank.single
    refine (reads_filter hr h.1.2).bind hfront ?_ fun found hfound => ?_
    · rw [cons_append, headKind_cons, hcolon]
      exact TokenKind.noConfusion
    · refine .bind (.accept hcolon (.bind (.expect hother ?_)))
      refine .pure ⟨?_, rfl⟩
      exact congrArg (LinkEntry.mk t.literal · (some other.literal)) hfound

/-- The events that are linked, with the target after an equals sign. -/
theorem Link.reads {x : Link} (h : x.isWritable) :
    Link.parser.Reads r (fun k => Stops 0 k ∧ k ≠ .arrow) x.written fun y =>
      y.unplaced = x.unplaced := by
  intro ts tail hts htail
  cases x with
  | single event filter target =>
    simp only [Link.isWritable, Bool.and_eq_true] at h
    obtain ⟨front, sign, back, rfl, hsign, hfront, hback⟩ := Stands.joined hts
    obtain ⟨t, rest, rfl, ht, rfl, hrest⟩ := hfront.cons
    simp only [cons_append, append_assoc]
    refine .bind (.current ?_)
    simp only [headD_cons, ht]
    refine .bind (.advance ?_)
    refine (reads_filter hr h.1.2).bind hrest ?_ fun found hfound => ?_
    · rw [headKind_cons, hsign]
      exact TokenKind.noConfusion
    · refine .bind (.expect hsign ?_)
      refine (LinkTarget.reads hr h.2).bind hback htail fun y hy => .pure ⟨?_, rfl⟩
      exact congrArg₂ (Link.single t.literal) hfound hy
  | multi entries target =>
    obtain ⟨hentries, htarget⟩ := Bool.and_eq_true_iff.mp h
    obtain ⟨front, sign, back, rfl, hsign, hfront, hback⟩ := Stands.joined hts
    obtain ⟨first, middle, last, rfl, hfirst, hlast, hmiddle⟩ := hfront.enclose
    simp only [cons_append, append_assoc, nil_append]
    refine .bind (.current ?_)
    simp only [headD_cons, hfirst]
    refine .bind (.advance ?_)
    refine yields_closedList hmiddle hlast (fun e _ => Opens.mark fun t ht _ => decide_eq_true ht)
      (fun e he => LinkEntry.reads hr (all_eq_true.mp hentries e he)) (by simp) (by simp)
      (fun t ht => by simp [ht]) fun found hfound => ?_
    refine .bind (.expect hsign ?_)
    refine (LinkTarget.reads hr htarget).bind hback htail fun y hy => .pure ⟨?_, rfl⟩
    exact congrArg₂ Link.multi hfound hy

end Expressions

/-- Any token may start a link. -/
theorem opens_link (x : Link) : Opens (fun _ => true) x.written := by
  cases x with
  | single event filter target => exact Opens.mark fun _ _ _ => rfl
  | multi entries target => exact Opens.mark fun _ _ _ => rfl

/-! ## Names that are imported -/

theorem ImportName.reads (r : Reading) (n : ImportName) :
    ImportName.parser.Reads r (· ≠ .keyword .«as») n.written fun m => m = n := by
  intro ts tail hts htail
  obtain ⟨name, renamed⟩ := n
  cases renamed with
  | none =>
    obtain ⟨t, rfl, ht, rfl⟩ := Stands.single hts
    exact .bind (.expect ht (.bind (.accept_other htail
      (.pure ⟨rfl, rfl⟩))))
  | some other =>
    obtain ⟨front, middle, back, rfl, hmiddle, hfront, hback⟩ := Stands.joined hts
    obtain ⟨t, rfl, ht, rfl⟩ := hfront.single
    obtain ⟨u, rfl, hu, rfl⟩ := hback.single
    refine .bind (.expect ht (.bind (.accept hmiddle ?_)))
    exact .bind (.expect hu (.pure ⟨rfl, rfl⟩))

theorem ImportName.opens (n : ImportName) : Opens (·.kind = .identifier) n.written := by
  obtain ⟨name, renamed⟩ := n
  cases renamed with
  | none => exact Opens.mark fun t ht _ => decide_eq_true ht
  | some other => exact Opens.mark fun t ht _ => decide_eq_true ht

theorem yields_importSource {first source newline : Token} (hfirst : first.kind = .keyword .«from»)
    (hsource : source.kind = .string) (hliteral : source.literal = Literal.quote text.toList)
    (hnewline : newline.kind = .newline) {Q : String → List Token → Prop} (h : Q text tail) :
    Block.importSource.Yields r (first :: source :: newline :: tail) Q := by
  refine .bind (.expect hfirst (.bind ?_))
  refine Expr.yields_stringValue hsource hliteral (.bind (.expect hnewline ?_))
  rw [String.ofList_toList]
  exact .pure h

end Stencil
