import Stencil.Proofs.Expr.Reading

/-!
# Reading expressions back

An expression that is written and read again is the same apart from the places in it. Format strings
need care: an expression inside one is read with its own strings split only so deep. But it is
written without braces, so its strings have none and are plain texts at any depth.
-/
namespace Stencil

open Written (line enclose encloseIf)
open Format (isBrace double splitWithin)
open List

/-! ## One expression -/

namespace Expr

open Stencil.Parser

theorem readWith_text {split : String → List Segment} (e : Expr) (h : e.isWritable)
    (hsplit : SplitsBack split e.texts) (file : String) :
    ∃ x, readWith split file e.text = .ok x ∧ x.unplaced = e.unplaced := by
  obtain ⟨ts, newline, eof, hscan, hts, hnewline, heof⟩ := scan_line (e.scans h 0 []) file
  have hstop : Stops 0 (headKind ⟨file, .eof eof, split⟩ [newline]) :=
    .of_end (.inr (.inr hnewline))
  have hown : ReadsOwn ⟨file, .eof eof, split⟩ e := e.reads_own h hsplit
  have hlength : ts.length < (ts ++ [newline]).length + 1 := by
    rw [length_append]
    omega
  have hwhole : Yields whole ⟨file, .eof eof, split⟩ (ts ++ [newline])
      fun x _ => x.unplaced = e.unplaced := by
    refine .bind (.bind (.bounded ((hown.whole hts hlength hstop).leaves ?_)))
    rintro x hx
    refine .bind (.accept hnewline (.pure (.bind (.bind (.current ?_)))))
    rw [headD_nil, Ending.token, if_pos heof]
    exact .bind (.advance (.pure (.pure hx)))
  obtain ⟨x, rest, hread, hx⟩ := hwhole
  refine ⟨x, ?_, hx⟩
  rw [readWith, text, hscan]
  dsimp only
  rw [hread]
  rfl

end Expr

/-! ## Expressions without braces -/

variable {text : List Char} {segments : List Segment} {e : Expr}

theorem mem_quote {c : Char} (hc : c ∈ text) (hbrace : isBrace c) :
    c ∈ (Literal.quote text).toList := by
  rw [quote_toList]
  refine mem_cons_of_mem _ (mem_append_left _ (mem_flatMap.mpr ⟨c, hc, ?_⟩))
  rcases Format.isBrace_cases hbrace with rfl | rfl <;> decide

theorem double_of_unbraced (h : text.all (!isBrace ·)) : double text = text := by
  induction text with
  | nil => rfl
  | cons c cs ih =>
    rw [all_cons, Bool.and_eq_true, Bool.not_eq_true'] at h
    rw [double, flatMap_cons, h.1, ← double, ih h.2]
    rfl

/-- A format string is written with braces. -/
theorem brace_mem_formatText (h : segments.any Segment.isExpr) : '{' ∈ formatText segments := by
  induction segments with
  | nil => cases h
  | cons segment segments ih =>
    cases segment with
    | text t =>
      rw [formatText]
      exact mem_append_right _ (ih h)
    | expr x =>
      rw [formatText]
      exact mem_cons_self

/-- The texts are plain ones without braces. -/
def Unbraced (texts : List (List Segment)) : Prop :=
  ∀ segments ∈ texts, ∃ value, segments = Segment.plain value ∧
    value.toList.all (!isBrace ·) = true

theorem Unbraced.append {texts texts' : List (List Segment)} (h : Unbraced texts)
    (h' : Unbraced texts') : Unbraced (texts ++ texts') :=
  forall_mem_append.mpr ⟨h, h'⟩

/-- No brace stands on the line. -/
def Bare (ws : List Written) : Prop := (line ws).all (!isBrace ·) = true

namespace Bare

variable {ws ws' : List Written}

theorem append (h : Bare (ws ++ ws')) : Bare ws ∧ Bare ws' := by
  rw [Bare, line, flatMap_append, all_append, Bool.and_eq_true] at h
  exact h

theorem enclose {b : Bracket} (h : Bare (enclose b ws)) : Bare ws :=
  (@append ([Written.opening b] ++ ws) _ h).1.append.2

theorem encloseIf {needed : Bool} (h : Bare (encloseIf needed ws)) : Bare ws := by
  cases needed with
  | true => exact h.enclose
  | false => exact h

theorem joined {operator : Written} {left right : List Written}
    (h : Bare (joined operator left right)) : Bare left ∧ Bare right :=
  ⟨h.append.1.append.1, h.append.2⟩

/-- What is quoted on the line has no brace. -/
theorem quoted {text : List Char} (h : Bare [.mark .string (Literal.quote text)]) :
    text.all (!isBrace ·) := by
  rw [Bare, all_eq_true] at h
  rw [all_eq_true]
  intro c hc
  by_contra hbrace
  rw [Bool.not_eq_true, Bool.not_eq_false'] at hbrace
  have hmem : c ∈ line [.mark .string (Literal.quote text)] :=
    mem_append_left _ (mem_quote hc hbrace)
  simpa [hbrace] using h c hmem

end Bare

theorem all_unbraced_of_double (h : (double text).all (!isBrace ·)) : text.all (!isBrace ·) := by
  rw [all_eq_true] at h ⊢
  intro c hc
  refine h c (mem_flatMap.mpr ⟨c, hc, ?_⟩)
  split <;> simp

mutual

/-- An expression that is written without braces has only plain strings without braces. -/
theorem Expr.unbraced_texts (e : Expr) (h : e.isWritable) (least : Nat)
    (hbare : Bare (e.written least)) : Unbraced e.texts := by
  cases e with
  | name | number => exact forall_mem_nil _
  | string p value =>
    exact forall_mem_singleton.mpr ⟨value, rfl, all_unbraced_of_double hbare.quoted⟩
  | format p segments =>
    have hexpr := (Bool.and_eq_true_iff.mp h).1
    have hnone := all_eq_true.mp hbare.quoted _ (brace_mem_formatText hexpr)
    cases hnone
  | dictionary p items =>
    rw [Expr.written, Bare, enclose, line, cons_append, flatMap_cons, all_append] at hbare
    cases hbare
  | list p items => exact unbraced_textsAll items h hbare.enclose
  | «attribute» p object name =>
    exact object.unbraced_texts (Bool.and_eq_true_iff.mp h).1 7 hbare.encloseIf.append.1
  | item p object index =>
    have hparts := Bool.and_eq_true_iff.mp h
    have hline := hbare.encloseIf.append
    exact (object.unbraced_texts hparts.1 7 hline.1).append
      (index.unbraced_texts hparts.2 0 hline.2.enclose)
  | call p function arguments =>
    have hparts := Bool.and_eq_true_iff.mp h
    have hline := hbare.encloseIf.append
    exact (function.unbraced_texts hparts.1 7 hline.1).append
      (unbraced_textsAll arguments hparts.2 hline.2.enclose)
  | new p operand =>
    exact operand.unbraced_texts h 6 (@Bare.append [.word .new, .blank] _ hbare.encloseIf).2
  | not p operand =>
    exact operand.unbraced_texts h 2 (@Bare.append [.word .not, .blank] _ hbare.encloseIf).2
  | arithmetic p op left right | relation p op left right | and p left right
  | or p left right =>
    have hparts := Bool.and_eq_true_iff.mp h
    have hline := Bare.joined hbare.encloseIf
    exact (left.unbraced_texts hparts.1 _ hline.1).append (right.unbraced_texts hparts.2 _ hline.2)

theorem unbraced_textsAll (xs : List Expr) (h : allWritable xs)
    (hbare : Bare (writtenAll xs)) : Unbraced (textsAll xs) := by
  match xs with
  | [] => exact forall_mem_nil _
  | [x] =>
    exact (x.unbraced_texts (Bool.and_eq_true_iff.mp h).1 0 hbare).append (forall_mem_nil _)
  | x :: y :: ys =>
    have hparts := Bool.and_eq_true_iff.mp h
    have hline := @Bare.append (x.written 0 ++ Written.comma) _ hbare
    exact (x.unbraced_texts hparts.1 0 hline.1.append.1).append
      (unbraced_textsAll (y :: ys) hparts.2 hline.2)

end

/-! ## All expressions -/

theorem segmentsWritable_plain (value : String) : segmentsWritable (Segment.plain value) := by
  rw [Segment.plain]
  split
  · rfl
  · next hne => simp [segmentsWritable, hne]

mutual

theorem Expr.segmentsWritable_texts (e : Expr) (h : e.isWritable) :
    ∀ segments ∈ e.texts, segmentsWritable segments := by
  cases e with
  | name | number => exact forall_mem_nil _
  | string p value => exact forall_mem_singleton.mpr (segmentsWritable_plain value)
  | format p segments =>
    exact forall_mem_singleton.mpr (Bool.and_eq_true_iff.mp (Bool.and_eq_true_iff.mp h).2).1
  | dictionary p items => exact segmentsWritable_textsItems items h
  | list p items => exact segmentsWritable_textsAll items h
  | «attribute» p object name =>
    exact object.segmentsWritable_texts (Bool.and_eq_true_iff.mp h).1
  | item p left right | arithmetic p op left right | relation p op left right
  | and p left right | or p left right =>
    have hparts := Bool.and_eq_true_iff.mp h
    exact forall_mem_append.mpr
      ⟨left.segmentsWritable_texts hparts.1, right.segmentsWritable_texts hparts.2⟩
  | call p function arguments =>
    have hparts := Bool.and_eq_true_iff.mp h
    exact forall_mem_append.mpr
      ⟨function.segmentsWritable_texts hparts.1, segmentsWritable_textsAll arguments hparts.2⟩
  | new p operand | not p operand => exact operand.segmentsWritable_texts h

theorem segmentsWritable_textsAll (xs : List Expr) (h : allWritable xs) :
    ∀ segments ∈ textsAll xs, segmentsWritable segments := by
  cases xs with
  | nil => exact forall_mem_nil _
  | cons x xs =>
    have hparts := Bool.and_eq_true_iff.mp h
    exact forall_mem_append.mpr
      ⟨x.segmentsWritable_texts hparts.1, segmentsWritable_textsAll xs hparts.2⟩

theorem segmentsWritable_textsItems (items : List (String × Expr)) (h : itemsWritable items) :
    ∀ segments ∈ textsItems items, segmentsWritable segments := by
  cases items with
  | nil => exact forall_mem_nil _
  | cons item items =>
    obtain ⟨key, x⟩ := item
    have hparts := Bool.and_eq_true_iff.mp h
    exact forall_mem_append.mpr
      ⟨x.segmentsWritable_texts (Bool.and_eq_true_iff.mp hparts.1).2,
        segmentsWritable_textsItems items hparts.2⟩

end

theorem writable_of_mem {x : Expr} (h : segmentsWritable segments) (hx : .expr x ∈ segments)
    : x.isWritable ∧ Bare (x.written 0) := by
  induction segments with
  | nil => cases hx
  | cons segment segments ih =>
    rcases mem_cons.mp hx with rfl | hlater
    · rw [segmentsWritable, Bool.and_eq_true, Bool.and_eq_true] at h
      exact h.1
    · cases segment with
      | text t | expr y =>
        rw [segmentsWritable, Bool.and_eq_true] at h
        exact ih h.2 hlater

theorem splitWithin_formatText {depth : Nat} (h : segmentsWritable segments)
    (hread : ∀ x, .expr x ∈ segments → SplitsBack (splitWithin depth) x.texts) :
    unplacedSegments (splitWithin (depth + 1) (String.ofList (formatText segments))) =
      unplacedSegments segments := by
  rw [splitWithin, String.toList_ofList]
  refine segments_formatText segments h fun x hx => ?_
  exact x.readWith_text (writable_of_mem h hx).1 (hread x hx) ""

/-- Strings without braces are split into themselves, however deep. -/
theorem splitsBack_of_bare (h : e.isWritable) (hbare : Bare (e.written 0)) (depth : Nat) :
    SplitsBack (splitWithin depth) e.texts := by
  intro segments hsegments
  obtain ⟨value, rfl, hvalue⟩ := e.unbraced_texts h 0 hbare segments hsegments
  cases depth with
  | zero =>
    rw [splitWithin, formatText_plain, double_of_unbraced hvalue, String.ofList_toList]
  | succ depth =>
    refine splitWithin_formatText (e.segmentsWritable_texts h _ hsegments) fun x hx => ?_
    rw [Segment.plain] at hx
    split at hx
    · cases hx
    · cases mem_singleton.mp hx

theorem eq_nil_of_formatText (h : segmentsWritable segments)
    (hnil : formatText segments = []) : segments = [] := by
  cases segments with
  | nil => rfl
  | cons segment segments =>
    cases segment with
    | text t =>
      rw [formatText, append_eq_nil_iff] at hnil
      simp only [segmentsWritable, Bool.and_eq_true] at h
      have hempty : t.toList = [] := by
        cases ht : t.toList with
        | nil => rfl
        | cons c cs =>
          rw [ht, double, flatMap_cons] at hnil
          split at hnil <;> cases hnil.1
      simp [String.toList_eq_nil_iff.mp hempty] at h
    | expr x => cases hnil

theorem split_formatText (h : segmentsWritable segments) :
    unplacedSegments (Format.split (String.ofList (formatText segments))) =
      unplacedSegments segments := by
  rw [Format.split, String.length_ofList]
  -- Only an empty text is split at depth zero, and it has no segments.
  cases hlength : (formatText segments).length with
  | zero =>
    have hnil := length_eq_zero_iff.mp hlength
    rw [eq_nil_of_formatText h hnil]
    rfl
  | succ depth =>
    refine splitWithin_formatText h fun x hx => ?_
    obtain ⟨hx, hbare⟩ := writable_of_mem h hx
    exact splitsBack_of_bare hx hbare depth

theorem splitsBack_split (h : e.isWritable) : SplitsBack Format.split e.texts := by
  intro segments hsegments
  exact split_formatText (e.segmentsWritable_texts h segments hsegments)

/-- An expression that is written and read again is the same, its places aside. -/
theorem Expr.read_written (e : Expr) (h : e.isWritable = true) (file : String) :
    (Expr.read file e.text).map Expr.unplaced = .ok e.unplaced := by
  obtain ⟨x, hread, hx⟩ := e.readWith_text h (splitsBack_split h) file
  rw [Expr.read, hread, Except.map, hx]

/-- Every level, with parentheses where they are needed and braces in strings and keys. -/
def orderExpr : Expr :=
  .and {} (.or {} (.name {} "open") (.not {} (.name {} "paid")))
    (.not {} (.relation {} .less
      (.arithmetic {} .sub (.name {} "total")
        (.arithmetic {} .sub (.name {} "fee") (.arithmetic {} .mul (.number {} "1.5")
          (.item {} (.name {} "rates") (.number {} "0")))))
      (.attribute {} (.new {} (.call {} (.attribute {} (.name {} "shop") "new")
        [.list {} [], .dictionary {} [("a\x7b", .string {} "b\x7d\n")],
          .format {} [.text "Hi ", .expr (.call {} (.name {} "user") [.string {} "x"]),
            .text "\x7d!"]])) "of")))

theorem orderExpr_read :
    orderExpr.isWritable = true ∧
      orderExpr.text = "(open or not paid) and not total - (fee - 1.5 * rates[0]) < " ++
        "(new shop.new([], \x7b\"a\x7b\": \"b\x7d\x7d\\n\"\x7d, " ++
        "\"Hi \x7buser(\\\"x\\\")\x7d\x7d\x7d!\")).of" ∧
      (Expr.read "" orderExpr.text).map Expr.unplaced = .ok orderExpr.unplaced :=
  ⟨by decide +kernel, by decide +kernel, orderExpr.read_written (by decide +kernel) ""⟩

end Stencil
