import Stencil.Proofs.Token.Alignment

/-!
# Expressions at another place

The reader of expressions does the same at another place. Expressions inside a text have been read on
their own, and their positions lie in that text: they stay.
-/
namespace Stencil

/-! ## Positions -/

mutual

/-- The expression further down. -/
def Expr.down (lines : Nat) : Expr → Expr
  | .name p text => .name (p.down lines) text
  | .string p value => .string (p.down lines) value
  | .number p digits => .number (p.down lines) digits
  | .new p operand => .new (p.down lines) (operand.down lines)
  | .not p operand => .not (p.down lines) (operand.down lines)
  | .and p left right => .and (p.down lines) (left.down lines) (right.down lines)
  | .or p left right => .or (p.down lines) (left.down lines) (right.down lines)
  | .attribute p object text => .attribute (p.down lines) (object.down lines) text
  | .item p object index => .item (p.down lines) (object.down lines) (index.down lines)
  | .call p function arguments =>
    .call (p.down lines) (function.down lines) (Expr.downAll lines arguments)
  | .arithmetic p op left right =>
    .arithmetic (p.down lines) op (left.down lines) (right.down lines)
  | .relation p op left right => .relation (p.down lines) op (left.down lines) (right.down lines)
  | .format p segments => .format (p.down lines) segments
  | .dictionary p items => .dictionary (p.down lines) (Expr.downItems lines items)
  | .list p items => .list (p.down lines) (Expr.downAll lines items)

def Expr.downAll (lines : Nat) : List Expr → List Expr
  | [] => []
  | x :: xs => x.down lines :: Expr.downAll lines xs

def Expr.downItems (lines : Nat) : List (String × Expr) → List (String × Expr)
  | [] => []
  | (key, x) :: items => (key, x.down lines) :: Expr.downItems lines items

end

namespace Expr

open Stencil.Parser

def downItem (lines : Nat) (item : String × Expr) : String × Expr := (item.1, item.2.down lines)

theorem downAll_eq_map (lines : Nat) (xs : List Expr) : downAll lines xs = xs.map (down lines) := by
  induction xs with
  | nil => rfl
  | cons x xs ih => rw [downAll, ih, List.map_cons]

theorem downItems_eq_map (lines : Nat) (items : List (String × Expr)) :
    downItems lines items = items.map (downItem lines) := by
  induction items with
  | nil => rfl
  | cons item items ih => rw [downItems, ih, List.map_cons, downItem]

variable {S : Relocation} {bound : Nat} {K : TokenKind → Prop}

theorem key_tracks : Tracks S bound K id key key := by
  refine Follows.current_bind fun {t u} htoken => ?_
  rw [S.kind htoken, S.isWord htoken]
  refine .ite (fun _ => .stringValue) fun _ => .ite (fun hword => ?_) fun _ => .expected _
  have hspelled := Token.isSpelled_of_isWord hword
  exact (Follows.advance_spelled hspelled).bind fun _ => .pure (S.literal htoken hspelled)

theorem ofSegments_down (lines : Nat) (p : Position) (segments : List Segment) :
    ofSegments (p.down lines) segments = (ofSegments p segments).down lines := by
  unfold ofSegments
  split <;> rfl

section Inner

variable {inner inner' : Parser Expr} (hinner : Tracks S bound anyKind (down S.lines) inner inner')

include hinner

theorem listUntil_tracks (b : Bracket) :
    Tracks S bound K (downAll S.lines) (listUntil inner b) (listUntil inner' b) := by
  refine (Follows.commaList (S.more_of_kind fun k => decide (k ≠ .closing b)) (fun _ _ => trivial)
    hinner).bind fun items => ?_
  exact .expect_then rfl (.pure (downAll_eq_map _ _).symm)

theorem dictionaryItem_tracks :
    Tracks S bound K (downItem S.lines) (dictionaryItem inner) (dictionaryItem inner') :=
  key_tracks.bind fun _ => .expect_then rfl (hinner.bind fun _ => .pure rfl)

theorem atom_tracks : Tracks S (bound + 1) K (down S.lines) (atom inner) (atom inner') := by
  refine .current_bind fun {t u} htoken => .here_bind fun p p' hp => ?_
  have hplace : t.kind ≠ .dedent → p' = p.down S.lines := fun hkind =>
    hp (.inr fun k hk => hk.1 ▸ hkind)
  rw [S.kind htoken]
  split
  case h_1 heq | h_2 heq =>
    rw [hplace (by rw [heq]; exact TokenKind.noConfusion), S.literal htoken (by rw [heq]; rfl)]
    exact .advance_bind (isInner_front (heq ▸ rfl)) (.pure rfl)
  case h_3 heq =>
    rw [hplace (by rw [heq]; exact TokenKind.noConfusion)]
    refine .stringValue_bind fun value hsplit => .split_bind hsplit fun segments => .pure ?_
    exact ofSegments_down _ _ _
  case h_4 heq =>
    rw [hplace (by rw [heq]; exact TokenKind.noConfusion)]
    refine .advance_bind (isInner_front (heq ▸ rfl)) ?_
    refine (Follows.commaList (S.more_of_kind fun k => decide (k ≠ .closing .brace))
      (fun _ _ => trivial) (dictionaryItem_tracks (K := anyKind) hinner)).bind fun items => ?_
    refine .expect_then rfl (.pure ?_)
    rw [down, downItems_eq_map]
  case h_5 heq =>
    rw [hplace (by rw [heq]; exact TokenKind.noConfusion)]
    exact .advance_bind (isInner_front (heq ▸ rfl))
      ((listUntil_tracks hinner .square).bind fun _ => .pure rfl)
  case h_6 heq =>
    exact .advance_bind (isInner_front (heq ▸ rfl)) (hinner.bind fun x => .expect_then rfl (.pure rfl))
  case h_7 => exact .expected _

theorem suffixed_tracks :
    Tracks S (bound + 1) K (down S.lines) (suffixed inner) (suffixed inner') := by
  refine (atom_tracks hinner).bind fun x => Follows.loop (fun x x' => x' = down S.lines x)
    (fun _ _ => rfl) (fun _ _ => rfl) ?_ rfl
  rintro less rounds before later hless ih x _ rfl
  have hinner := hinner.mono (Nat.le_of_lt_succ hless)
  refine .here_kind_bind fun p p' k hp => ?_
  split
  · rw [hp TokenKind.noConfusion]
    refine .advance_bind (isInner_front rfl) (.current_bind fun {t u} htoken => ?_)
    rw [S.isWord htoken]
    refine .ite (fun hword => ?_) fun _ => .expected _
    have hspelled := Token.isSpelled_of_isWord hword
    rw [S.literal htoken hspelled]
    exact (Follows.advance_spelled hspelled).bind fun _ => ih rfl
  · rw [hp TokenKind.noConfusion]
    exact .advance_bind (isInner_front rfl) (hinner.bind fun index => .expect_then rfl (ih rfl))
  · rw [hp TokenKind.noConfusion]
    exact .advance_bind (isInner_front rfl) ((listUntil_tracks hinner .paren).bind fun _ => ih rfl)
  · exact .pure rfl

end Inner

/-- An operator joins its operands wherever they stand, and it is no end. -/
structure Joining.Moves (joining : Joining) : Prop where
  dedent : joining .dedent = none
  inner : ∀ {k join}, joining k = some join → k.isInner
  down : ∀ {k join}, joining k = some join → ∀ lines p left right,
    join (Position.down lines p) (Expr.down lines left) (Expr.down lines right) =
      (join p left right).down lines

theorem joinings_move {joining : Joining}
    (h : joining ∈ [product, sum, comparing, conjunction, disjunction]) : joining.Moves := by
  simp only [List.mem_cons, List.not_mem_nil, or_false] at h
  constructor
  · rcases h with rfl | rfl | rfl | rfl | rfl <;> rfl
  · intro k join hjoin
    cases k with
    | eof | error => rcases h with rfl | rfl | rfl | rfl | rfl <;> cases hjoin
    | _ => rfl
  · intro k join hjoin
    rcases h with rfl | rfl | rfl | rfl | rfl <;>
      simp only [product, sum, comparing, conjunction, disjunction] at hjoin <;>
      split at hjoin <;> cases hjoin <;> exact fun _ _ _ _ => rfl

section Operand

variable {operand operand' : Parser Expr}
  (hoperand : ∀ {K}, Tracks S bound K (down S.lines) operand operand')

include hoperand

theorem chain_tracks {joining : Joining} (hjoining : joining.Moves) :
    Tracks S bound K (down S.lines) (chain operand joining) (chain operand' joining) := by
  refine hoperand.bind fun first => Follows.loop (fun x x' => x' = down S.lines x)
    (fun _ _ => rfl) (fun _ _ => rfl) ?_ rfl
  rintro less rounds before later hless ih left _ rfl
  refine .kind_bind fun k => ?_
  cases hjoin : joining k with
  | none => exact .pure rfl
  | some join =>
    have hkind : ∀ k', k' = k ∧ anyKind k' → k' ≠ .dedent := by
      rintro k' ⟨rfl, -⟩ rfl
      rw [hjoining.dedent] at hjoin
      cases hjoin
    refine .here_bind_of_ne hkind fun p => .advance_bind (isInner_front (hjoining.inner hjoin)) ?_
    refine (hoperand.mono (Nat.le_of_lt hless)).bind fun right => ?_
    rw [hjoining.down hjoin]
    exact ih rfl

theorem prefixed_tracks (word : Keyword) (wrap : Position → Expr → Expr)
    (hwrap : ∀ lines p x, wrap (Position.down lines p) (down lines x) = (wrap p x).down lines) :
    Tracks S bound K (down S.lines) (prefixed word wrap operand) (prefixed word wrap operand') := by
  refine Follows.rounds_any (fun _ => rfl) (fun _ => rfl) fun hless ih => ?_
  refine .kind_bind fun k => .ite (fun hk => ?_) fun _ => hoperand.mono hless
  refine .here_bind_of_ne (by rintro _ ⟨rfl, -⟩; rw [hk]; exact TokenKind.noConfusion) fun p => ?_
  exact .advance_bind (isInner_front (hk ▸ rfl)) (ih.bind fun x => .pure (hwrap _ _ _))

end Operand

theorem level_tracks {inner inner' : Parser Expr}
    (hinner : Tracks S bound anyKind (down S.lines) inner inner') :
    Tracks S (bound + 1) K (down S.lines) (level inner) (level inner') := by
  have hoperand : ∀ {K}, Tracks S (bound + 1) K (down S.lines)
      (prefixed .new .new (suffixed inner)) (prefixed .new .new (suffixed inner')) :=
    prefixed_tracks (suffixed_tracks hinner) .new .new fun _ _ _ => rfl
  have hproduct : ∀ {K}, Tracks S (bound + 1) K (down S.lines) _ _ :=
    chain_tracks hoperand (@joinings_move product (by simp))
  have hsum : ∀ {K}, Tracks S (bound + 1) K (down S.lines) _ _ :=
    chain_tracks hproduct (@joinings_move sum (by simp))
  have hcomparison : ∀ {K}, Tracks S (bound + 1) K (down S.lines) _ _ :=
    chain_tracks hsum (@joinings_move comparing (by simp))
  have hnegation : ∀ {K}, Tracks S (bound + 1) K (down S.lines) _ _ :=
    prefixed_tracks hcomparison .not .not fun _ _ _ => rfl
  have hconjunction : ∀ {K}, Tracks S (bound + 1) K (down S.lines) _ _ :=
    chain_tracks hnegation (@joinings_move conjunction (by simp))
  exact chain_tracks hconjunction (@joinings_move disjunction (by simp))

theorem parser_tracks : Tracks S bound K (down S.lines) Expr.parser Expr.parser := by
  exact Follows.rounds_any (fun _ => rfl) (fun _ => rfl) fun _ ih => level_tracks ih

theorem line_tracks : Tracks S bound K (down S.lines) line line :=
  parser_tracks.bind fun _ => (Follows.accept rfl).bind fun _ => .pure rfl

theorem whole_tracks (h : S.IsSingle) : Tracks S bound K (down S.lines) whole whole :=
  line_tracks.bind fun _ => .expect_bind_of False.elim (.inl h) fun _ _ => .pure rfl

end Expr
end Stencil
