import Stencil.Proofs.Script.Places
import Stencil.Script.Gap

/-!
# What an expression statement starts with

A statement that starts with a brace reads as a block, and one that starts with the word `function`
as a declaration. The printer puts an expression in parentheses if it is a function or an object
itself. It does not look at what stands in front of an attribute, a call or an operator, and there an
object or a function goes without parentheses.
-/
namespace Stencil.Script

open List

/-- A block or a declaration starts like this. -/
def startsDeclaration (text : List Char) : Bool :=
  text.head? = some '{' || (Reader.word text).1 = "function"

namespace Expr

/-- What stands in front of an operand at a place that asks for a rank: nothing if it is put in
parentheses there. -/
def ifBare (x : Expr) (rank : Nat) (front : Option Expr) : Option Expr :=
  if x.level.rank < rank then none else front

/-- What the text of an expression starts with, down to an expression that has no operand in front
of it. There is none if the text starts with a parenthesis. -/
def front? : Expr → Option Expr
  | .attribute x _ | .item x _ | .call x _ | .assign x _ _ => x.ifBare Level.call.rank x.front?
  | .and x _ => x.ifBare Level.and.rank x.front?
  | .or x _ => x.ifBare (x.orRank Level.or.rank) x.front?
  | .operation op x _ => x.ifBare op.level.rank x.front?
  | .ternary .. => none
  | x => some x

/-- A name is an identifier other than `function`, and a number starts with a digit. -/
def isLegible : Expr → Bool
  | .name label => isName label && label != "function"
  | .number digits => digits.toList.head?.any Text.isDigit
  | _ => true

end Expr

/-! ## The first word of a text -/

/-- No word goes on here. -/
def endsWord (s : List Char) : Bool := s.head?.all (!Reader.isNamePart ·)

theorem word_append_of_endsWord {w s : List Char} (hw : w.all Reader.isNamePart)
    (hs : endsWord s) : (Reader.word (w ++ s)).1 = String.ofList w := by
  have hall : ∀ c ∈ w, Reader.isNamePart c := all_eq_true.mp hw
  have hstop : s.takeWhile Reader.isNamePart = [] := by
    cases s with
    | nil => rfl
    | cons c s =>
      have hc : Reader.isNamePart c = false := by simpa [endsWord] using hs
      rw [takeWhile_cons_of_neg (by simp [hc])]
  rw [Reader.word, takeWhile_append_of_pos hall, hstop, append_nil]

/-- The first character tells it, unless it may begin the word. -/
theorem not_startsDeclaration {c : Char} (hbrace : c ≠ '{') (hword : c ≠ 'f') (s : List Char) :
    startsDeclaration (c :: s) = false := by
  have hother : (Reader.word (c :: s)).1 ≠ "function" := by
    intro heq
    have hlist := congrArg String.toList heq
    rw [Reader.word, String.toList_ofList, takeWhile_cons] at hlist
    split at hlist
    · exact hword (cons.inj hlist).1
    · cases hlist
  simp [startsDeclaration, hbrace, hother]

section Front

variable {t : String} (width : Nat) (ps : List Piece) (s : List Char)

theorem endsWord_text (h : t.toList.head?.any (!Reader.isNamePart ·)) :
    endsWord (layout width (.text t :: ps) ++ s) := by
  rw [Layout.text, endsWord]
  cases ht : t.toList with
  | nil => rw [ht] at h; cases h
  | cons c cs => rw [ht] at h; exact h

theorem startsDeclaration_text (h : t.toList.head? = some '{') :
    startsDeclaration (layout width (.text t :: ps) ++ s) := by
  rw [Layout.text, startsDeclaration, append_assoc, head?_append, h]
  rfl

theorem not_startsDeclaration_text (h : t.toList.head?.any (fun c => c ≠ '{' && c ≠ 'f') = true) :
    startsDeclaration (layout width (.text t :: ps) ++ s) = false := by
  rw [Layout.text]
  cases ht : t.toList with
  | nil => rw [ht] at h; cases h
  | cons c cs =>
    rw [ht, head?_cons, Option.any_some, Bool.and_eq_true, decide_eq_true_eq,
      decide_eq_true_eq] at h
    exact not_startsDeclaration h.1 h.2 _

end Front

namespace Expr

variable {width depth : Nat} {s : List Char} {x : Expr}

theorem startsDeclaration_name {label : String} (h : isName label)
    (hlabel : label ≠ "function") (hs : endsWord s) :
    startsDeclaration (label.toList ++ s) = false := by
  obtain ⟨c, t, hc, hstart, hall⟩ := Reader.isName_cases h
  have hword := word_append_of_endsWord hall hs
  rw [← hc, String.ofList_toList] at hword
  have hbrace : c ≠ '{' := by
    rintro rfl
    exact absurd hstart (by decide)
  rw [startsDeclaration, hword, hc]
  simp [hbrace, hlabel]

theorem startsDeclaration_header (label : String) (params : List (String × Option Expr))
    (width : Nat) (ps : List Piece) (s : List Char) :
    startsDeclaration (layout width (.text (header label params) :: ps) ++ s) := by
  obtain ⟨rest, hheader, hrest⟩ : ∃ rest, layout width (.text (header label params) :: ps) ++ s =
      "function".toList ++ rest ∧ endsWord rest := by
    rw [Layout.text, header]
    simp only [String.toList_append, append_assoc]
    refine ⟨_, rfl, ?_⟩
    split
    · rfl
    · simp only [String.toList_append, append_assoc]
      rfl
  rw [startsDeclaration, hheader, word_append_of_endsWord (by decide) hrest]
  rfl

theorem isLegible_number {digits : String} (h : (Expr.number digits).isLegible) :
    digits.toList.head?.any (fun c => c ≠ '{' && c ≠ 'f') = true := by
  rw [isLegible, Option.any_eq_true] at h
  obtain ⟨c, hc, hdigit⟩ := h
  have hother : c ≠ '{' ∧ c ≠ 'f' := by
    constructor <;> rintro rfl <;> exact absurd hdigit (by decide)
  simp [hc, hother]

theorem rank_le (l : Level) : l.rank ≤ 20 := by
  cases l <;> decide

theorem orRank_le (x : Expr) : x.orRank Level.or.rank ≤ 20 := by
  cases x <;> simp [orRank, Level.rank]

/-- What is known of an operand in front holds of the whole, unless it is in parentheses. -/
theorem startsDeclaration_operand {rank : Nat} {t : List Char} {P : Expr → Prop} (hrank : rank ≤ 20)
    (hfront : ∀ y ∈ x.ifBare rank x.front?, P y) (hx : (∀ y ∈ x.front?, P y) →
      startsDeclaration (x.bare width depth ++ t) = x.front?.any needsShield) :
    startsDeclaration (x.shown width depth rank ++ t) =
      (x.ifBare rank x.front?).any needsShield := by
  rw [shown_eq width depth hrank]
  unfold ifBare at hfront ⊢
  split
  · exact not_startsDeclaration (by decide) (by decide) _
  · next hbare =>
    rw [if_neg hbare] at hfront
    exact hx hfront

/-- A text starts like a block or a declaration exactly if an object or a function is in front. -/
theorem startsDeclaration_bare (x : Expr)
    (hx : ∀ y ∈ x.front?, y.gap? = none ∧ y.isLegible) (hs : endsWord s) :
    startsDeclaration (x.bare width depth ++ s) = x.front?.any needsShield := by
  fun_induction front? x generalizing s
  case case1 ih | case2 ih | case3 ih | case5 ih =>
    simp only [bare, pieces, enclose_lowest, Layout.append, append_assoc]
    exact startsDeclaration_operand (by decide) hx fun h => ih h (endsWord_text _ _ _ (by decide))
  case case4 ih =>
    simp only [bare, pieces, enclose_lowest, Layout.append, append_assoc]
    refine startsDeclaration_operand (by decide) hx fun h => ih h (endsWord_text _ _ _ ?_)
    simp
    rfl
  case case6 ih =>
    simp only [bare, pieces, enclose_lowest, Layout.append, append_assoc]
    exact startsDeclaration_operand (orRank_le _) hx fun h => ih h (endsWord_text _ _ _ (by decide))
  case case7 ih =>
    simp only [bare, pieces, enclose_lowest, Layout.append, append_assoc]
    refine startsDeclaration_operand (rank_le _) hx fun h => ih h (endsWord_text _ _ _ ?_)
    simp
    rfl
  case case8 =>
    simp only [bare, pieces, Layout.append, append_assoc]
    exact not_startsDeclaration_text _ _ _ (by decide)
  case case9 x hattribute hitem hcall hassign hand hor hoperation hternary =>
    obtain ⟨hgap, hlegible⟩ := hx x rfl
    rw [bare, Option.any_some]
    cases x with
    | string value =>
      rw [pieces]
      exact not_startsDeclaration_text _ _ _ (by simp [quote])
    | number digits =>
      rw [pieces]
      exact not_startsDeclaration_text _ _ _ (isLegible_number hlegible)
    | name label =>
      simp only [isLegible, Bool.and_eq_true, bne_iff_ne] at hlegible
      rw [pieces, Layout.text, Layout.nil, append_nil]
      exact startsDeclaration_name hlegible.1 hlegible.2 hs
    | object ps =>
      rcases ps with _ | ⟨p, _ | ⟨q, ps⟩⟩ <;>
        exact startsDeclaration_text _ _ _ (by simp)
    | list xs =>
      rcases xs with _ | ⟨x, _ | ⟨y, xs⟩⟩ <;> exact not_startsDeclaration_text _ _ _ (by decide)
    | new operand | not operand =>
      rw [pieces, enclose_lowest]
      exact not_startsDeclaration_text _ _ _ (by decide)
    | function label params body =>
      cases body with
      | nil => exact startsDeclaration_header _ _ _ _ _
      | cons first later => exact startsDeclaration_header _ _ _ _ _
    | missing => cases hgap
    | «attribute» x label => exact (hattribute _ _ rfl).elim
    | item x index => exact (hitem _ _ rfl).elim
    | call x arguments => exact (hcall _ _ rfl).elim
    | assign x label value => exact (hassign _ _ _ rfl).elim
    | and x y => exact (hand _ _ rfl).elim
    | or x y => exact (hor _ _ rfl).elim
    | operation op x y => exact (hoperation _ _ _ rfl).elim
    | ternary x y z => exact (hternary _ _ _ rfl).elim

/-- What stands in front of an expression without gaps is no gap. -/
theorem gap?_front {y : Expr} (hgap : x.gap? = none) (hy : y ∈ x.front?) : y.gap? = none := by
  have hbare : ∀ {x : Expr} {rank : Nat}, y ∈ x.ifBare rank x.front? → y ∈ x.front? := by
    intro x rank h
    unfold ifBare at h
    split at h
    · cases h
    · exact h
  fun_induction front? x
  case case1 ih => exact ih hgap (hbare hy)
  case case2 ih | case3 ih | case4 ih | case5 ih | case6 ih | case7 ih =>
    rw [gap?, Option.or_eq_none_iff] at hgap
    exact ih hgap.1 (hbare hy)
  case case8 => cases hy
  case case9 =>
    cases hy
    exact hgap

end Expr

/-- Behind its margin the line of an expression without gaps starts like a block or a declaration
exactly if the expression is neither an object nor a function itself and has one of them in front,
not in parentheses. Of names and numbers only one in front counts. -/
theorem statement_starts_declaration_iff (x : Expr) (hgap : x.gap? = none)
    (hfront : ∀ y ∈ x.front?, y.isLegible = true) (width depth : Nat) :
    ∃ line, layout width ((Stmt.expr x).pieces depth) = List.replicate (depth * width) ' ' ++ line ∧
      (startsDeclaration line = true ↔
        x.needsShield = false ∧ x.front?.any Expr.needsShield = true) := by
  have hend : endsWord (layout width [.text ";", .newline]) = true := by
    rw [← List.append_nil (layout width _)]
    exact endsWord_text width _ _ (by decide)
  have hbare := @Expr.startsDeclaration_bare width depth _ x
    (fun y hy => ⟨Expr.gap?_front hgap hy, hfront y hy⟩) hend
  simp only [Stmt.pieces, Layout.append, List.cons_append, Layout.margin]
  refine ⟨_, rfl, ?_⟩
  cases hshield : x.needsShield with
  | true =>
    rw [Layout.enclose_true, not_startsDeclaration (by decide) (by decide)]
    simp
  | false =>
    have hline : startsDeclaration (layout width (x.pieces depth Level.lowest.rank) ++
        layout width [.text ";", .newline]) = x.front?.any Expr.needsShield := hbare
    rw [enclose_false, hline]
    simp

/-- The attribute of an object in front of an operator. -/
def objectInFront : Expr :=
  .operation (.arith .add) (.attribute (.object [("a", .number "1")]) "a") (.name "b")

theorem objectInFront_starts_declaration :
    (objectInFront.gap? = none ∧ ∀ y ∈ objectInFront.front?, y.isLegible = true) ∧
      ∃ line, layout 2 ((Stmt.expr objectInFront).pieces 1) = List.replicate (1 * 2) ' ' ++ line ∧
        startsDeclaration line = true := by
  have hlegible : ∀ y ∈ objectInFront.front?, y.isLegible = true := by
    rintro y ⟨⟩
    rfl
  obtain ⟨line, hline, hstarts⟩ :=
    statement_starts_declaration_iff objectInFront rfl hlegible 2 1
  exact ⟨⟨rfl, hlegible⟩, line, hline, hstarts.mpr ⟨rfl, rfl⟩⟩

/-- An object and a function start their statements if they stand in front of an attribute or a
call, although no expression statement is meant to read as a block or a declaration. -/
theorem shield_misses_operand_in_front :
    Code.text 2 [.expr (.attribute (.object []) "a")] = "\x7b\x7d.a;\n" ∧
      Code.text 2 [.expr (.call (.function "" [] []) [])] = "function() \x7b\x7d();\n" ∧
      startsDeclaration "\x7b\x7d.a;\n".toList = true ∧
      startsDeclaration "function() \x7b\x7d();\n".toList = true := by
  decide +kernel

end Stencil.Script
