import Stencil.Proofs.Expr.Printing
import Stencil.Proofs.Token.Lines

/-!
# Written expressions as lines of tokens

What is written for an expression is scanned into the tokens it was written with.
-/
namespace Stencil

open Written List Bool

theorem Scans.encloseIf {ws : List Written} (h : ∀ before, Scans before ws before) (needed : Bool)
    (before : List Bracket) : Scans before (Written.encloseIf needed ws) before := by
  cases needed with
  | true => exact Scans.enclose .paren (.inr (h _).inner)
  | false => exact h before

variable {before : List Bracket} {p q : Bool} {xs : List Written}

theorem Scans.joined {kind : TokenKind} {text : String} (h : Scans.Operates kind text)
    {left right : List Written} (hleft : Scans before left before p)
    (hright : Scans before right before q) :
    Scans before (Stencil.joined (.mark kind text) left right) before p := by
  have hjoined : Stencil.joined (.mark kind text) left right =
      left ++ .blank :: .mark kind text :: .blank :: right := by
    rw [Stencil.joined, append_assoc]
    rfl
  rw [hjoined]
  exact hleft.append_blank (hright.operator h)

/-- A comma goes after what stands before it. -/
theorem Scans.comma {ys : List Written} (hxs : Scans before xs before p)
    (hys : Scans before ys before q) : Scans before (xs ++ Written.comma ++ ys) before p := by
  have hcomma : Scans.Operates .comma "," :=
    .sign (c := ',') rfl (by decide) rfl rfl
  rw [append_assoc]
  exact hxs.append (hys.operator hcomma) fun rest _ => rfl

/-- A key with its value. -/
theorem Scans.entry {key : String} (hkey : isStringText (Literal.quote key.toList))
    (hxs : Scans before xs before) :
    Scans before (.mark .string (Literal.quote key.toList) :: .mark .colon ":" :: .blank :: xs)
      before := by
  have hcolon : Scans.Operates .colon ":" :=
    .sign (c := ':') rfl (by decide) rfl rfl
  exact (Scans.string hkey).append (hxs.operator hcolon) fun rest _ => rfl

theorem ArithOp.operates (op : ArithOp) : Scans.Operates op.kind op.symbol := by
  cases op with
  | add => exact .sign (c := '+') rfl (by decide) rfl rfl
  | sub => exact .sign (c := '-') rfl (by decide) rfl rfl
  | mul => exact .sign (c := '*') rfl (by decide) rfl rfl
  | div => exact .sign (c := '/') rfl (by decide) rfl rfl

theorem Relation.operates (op : Relation) : Scans.Operates op.kind op.symbol := by
  cases op with
  | equal => exact .sign (c := '=') rfl (by decide) (by decide) rfl
  | notEqual => exact .sign (c := '!') rfl (by decide) (by decide) rfl
  | less => exact .sign (c := '<') rfl (by decide) rfl rfl
  | lessOrEqual => exact .sign (c := '<') rfl (by decide) (by decide) rfl
  | greater => exact .sign (c := '>') rfl (by decide) rfl rfl
  | greaterOrEqual => exact .sign (c := '>') rfl (by decide) (by decide) rfl

mutual

theorem Expr.scans (e : Expr) (h : e.isWritable) (least : Nat) (before : List Bracket) :
    Scans before (e.written least) before := by
  cases e with
  | name p name =>
    obtain ⟨hword, hfree⟩ := and_eq_true_iff.mp h
    have hkind : TokenKind.ofWord name = .identifier := by
      rw [TokenKind.ofWord, Option.isNone_iff_eq_none.mp hfree]
    have hscans : Scans before [.mark (.ofWord name) name] before :=
      .word hword (by rw [hkind]; exact TokenKind.noConfusion)
    rw [hkind] at hscans
    exact hscans
  | number p digits => exact .numeral h
  | string p value => exact .string h
  | format p segments => exact .string (and_eq_true_iff.mp (and_eq_true_iff.mp h).2).2
  | dictionary p items =>
    cases items with
    | nil => exact .enclose .brace (.inl rfl)
    | cons item items =>
      exact .enclose .brace (.inr (scans_items (item :: items) h (cons_ne_nil _ _) _).inner)
  | list p items =>
    cases items with
    | nil => exact .enclose .square (.inl rfl)
    | cons item items =>
      exact .enclose .square (.inr (scans_all (item :: items) h (cons_ne_nil _ _) _).inner)
  | «attribute» p object name =>
    obtain ⟨hobject, hname⟩ := and_eq_true_iff.mp h
    exact .encloseIf (fun before => (object.scans hobject 7 before).member hname) _ before
  | item p object index =>
    obtain ⟨hobject, hindex⟩ := and_eq_true_iff.mp h
    refine .encloseIf (fun before => ?_) _ before
    exact (object.scans hobject 7 before).append
      (.enclose .square (.inr (index.scans hindex 0 _).inner)) fun rest _ => rfl
  | call p function arguments =>
    obtain ⟨hfunction, harguments⟩ := and_eq_true_iff.mp h
    have hlist (before : List Bracket) :
        Scans before (Written.enclose .paren (writtenAll arguments)) before := by
      cases arguments with
      | nil => exact .enclose .paren (.inl rfl)
      | cons x xs =>
        exact .enclose .paren
          (.inr (scans_all (x :: xs) harguments (cons_ne_nil _ _) _).inner)
    refine .encloseIf (fun before => ?_) _ before
    exact (function.scans hfunction 7 before).append (hlist before) fun rest _ => rfl
  | new p operand | not p operand =>
    refine .encloseIf (fun before => ?_) _ before
    exact (operand.scans h _ before).operator (.keyword (by decide))
  | arithmetic p op left right | relation p op left right =>
    obtain ⟨hleft, hright⟩ := and_eq_true_iff.mp h
    refine .encloseIf (fun before => ?_) _ before
    exact .joined op.operates (left.scans hleft _ before) (right.scans hright _ before)
  | and p left right | or p left right =>
    obtain ⟨hleft, hright⟩ := and_eq_true_iff.mp h
    refine .encloseIf (fun before => ?_) _ before
    exact .joined (.keyword (by decide)) (left.scans hleft _ before) (right.scans hright _ before)

theorem scans_all (xs : List Expr) (h : allWritable xs) (hne : xs ≠ [])
    (before : List Bracket) : Scans before (writtenAll xs) before := by
  match xs with
  | [] => exact absurd rfl hne
  | [x] => exact x.scans (and_eq_true_iff.mp h).1 0 before
  | x :: y :: ys =>
    obtain ⟨hx, hys⟩ := and_eq_true_iff.mp h
    exact (x.scans hx 0 before).comma (scans_all (y :: ys) hys (cons_ne_nil y ys) before)

theorem scans_items (items : List (String × Expr)) (h : itemsWritable items)
    (hne : items ≠ []) (before : List Bracket) : Scans before (writtenItems items) before := by
  match items with
  | [] => exact absurd rfl hne
  | [(key, x)] =>
    obtain ⟨hitem, _⟩ := and_eq_true_iff.mp h
    obtain ⟨hkey, hx⟩ := and_eq_true_iff.mp hitem
    exact .entry hkey (x.scans hx 0 before)
  | (key, x) :: y :: ys =>
    obtain ⟨hitem, hys⟩ := and_eq_true_iff.mp h
    obtain ⟨hkey, hx⟩ := and_eq_true_iff.mp hitem
    exact (Scans.entry hkey (x.scans hx 0 before)).comma
      (scans_items (y :: ys) hys (cons_ne_nil y ys) before)

end

end Stencil
