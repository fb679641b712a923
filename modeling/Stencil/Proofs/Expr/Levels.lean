import Mathlib.Tactic.IntervalCases
import Stencil.Proofs.Expr.Printing
import Stencil.Template.Reading

/-!
# Levels of expressions

A reader for each level of expressions, from `or` at level 0 to atoms at level 8, and what it takes
to go on after an expression of that level. Tokens are read as an expression if, whatever follows,
the reader of the level goes on from that expression. Such tokens are read by all looser levels too.
-/
namespace Stencil

open List

namespace Parser

variable {α β : Type}

/-- The reader gives a value, and the value and the tokens that are left satisfy a condition. -/
def Yields (p : Parser α) (r : Reading) (ts : List Token) (Q : α → List Token → Prop) : Prop :=
  ∃ a rest, p r ts = .ok (a, rest) ∧ Q a rest

namespace Yields

variable {r : Reading} {ts : List Token} {p : Parser α} {Q : α → List Token → Prop} {t : Token}
  {k : TokenKind}

theorem weaken {P : α → List Token → Prop} (h : p.Yields r ts P)
    (hQ : ∀ a rest, P a rest → Q a rest) : p.Yields r ts Q := by
  obtain ⟨a, rest, hp, ha⟩ := h
  exact ⟨a, rest, hp, hQ a rest ha⟩

/-- A reader that leaves just the tail. -/
theorem leaves {P : α → Prop} {tail : List Token}
    (h : p.Yields r ts fun a rest => P a ∧ rest = tail) (hQ : ∀ a, P a → Q a tail) :
    p.Yields r ts Q := by
  refine h.weaken ?_
  rintro a rest ⟨ha, rfl⟩
  exact hQ a ha

theorem pure {a : α} (h : Q a ts) : Yields (Pure.pure a : Parser α) r ts Q :=
  ⟨a, ts, rfl, h⟩

theorem bind {f : α → Parser β} {Q : β → List Token → Prop}
    (h : p.Yields r ts fun a rest => (f a).Yields r rest Q) : (p >>= f).Yields r ts Q := by
  obtain ⟨a, middle, hp, b, rest, hf, hb⟩ := h
  exact ⟨b, rest, bind_eq_ok.mpr ⟨a, middle, hp, hf⟩, hb⟩

theorem current {Q : Token → List Token → Prop} (h : Q (ts.headD r.ending.token) ts) :
    Parser.current.Yields r ts Q :=
  ⟨_, _, rfl, h⟩

theorem kind {Q : TokenKind → List Token → Prop} (h : Q (ts.headD r.ending.token).kind ts) :
    Parser.kind.Yields r ts Q :=
  ⟨_, _, rfl, h⟩

theorem here {Q : Position → List Token → Prop} (h : ∀ p, Q p ts) : Parser.here.Yields r ts Q :=
  ⟨_, _, rfl, h _⟩

theorem advance {Q : Unit → List Token → Prop} (h : Q () ts.tail) :
    Parser.advance.Yields r ts Q :=
  ⟨_, _, rfl, h⟩

theorem split {text : String} {Q : List Segment → List Token → Prop} (h : Q (r.split text) ts) :
    (Parser.split text).Yields r ts Q :=
  ⟨_, _, rfl, h⟩

theorem bounded {loop : Nat → Parser α} (h : (loop (ts.length + 1)).Yields r ts Q) :
    (Parser.bounded loop).Yields r ts Q :=
  h

theorem round {step : (Parser α → Parser α) → Parser α} (h : (step (again ts.length)).Yields r ts Q) :
    (Parser.round step).Yields r ts Q :=
  h

theorem again (h : p.Yields r ts Q) (before : Nat) : (Parser.again before p).Yields r ts Q := h

theorem exhausted (h : p.Yields r ts Q) : (Parser.exhausted p).Yields r ts Q := h

theorem expect (hk : t.kind = k) {Q : Token → List Token → Prop} (h : Q t ts) :
    (Parser.expect k).Yields r (t :: ts) Q := by
  refine bind (current ?_)
  rw [headD_cons, if_pos hk]
  exact bind (advance (pure h))

theorem accept (hk : t.kind = k) {Q : Bool → List Token → Prop} (h : Q true ts) :
    (Parser.accept k).Yields r (t :: ts) Q := by
  refine bind (kind ?_)
  rw [headD_cons, if_pos hk]
  exact bind (advance (pure h))

theorem accept_other (hk : (ts.headD r.ending.token).kind ≠ k) {Q : Bool → List Token → Prop}
    (h : Q false ts) : (Parser.accept k).Yields r ts Q := by
  refine bind (kind ?_)
  rw [if_neg hk]
  exact pure h

end Yields
end Parser

namespace Expr

open Stencil.Parser

/-! ## The levels -/

def operands (inner : Parser Expr) : Parser Expr := prefixed .new .new (suffixed inner)

def products (inner : Parser Expr) : Parser Expr := chain (operands inner) product

def sums (inner : Parser Expr) : Parser Expr := chain (products inner) sum

def comparisons (inner : Parser Expr) : Parser Expr := chain (sums inner) comparing

def negations (inner : Parser Expr) : Parser Expr := prefixed .not .not (comparisons inner)

def conjunctions (inner : Parser Expr) : Parser Expr := chain (negations inner) conjunction

/-- The reader of a level. -/
def ranked (inner : Parser Expr) : Nat → Parser Expr
  | 0 => level inner
  | 1 => conjunctions inner
  | 2 => negations inner
  | 3 => comparisons inner
  | 4 => sums inner
  | 5 => products inner
  | 6 => operands inner
  | 7 => suffixed inner
  | _ => atom inner

/-- The operators of a level. -/
def joining : Nat → Joining
  | 0 => disjunction
  | 1 => conjunction
  | 3 => comparing
  | 4 => sum
  | 5 => product
  | _ => fun _ => none

/-- The word that an operand of a level may start with. -/
def leading : Nat → Option Keyword
  | 2 => some .not
  | 6 => some .new
  | _ => none

/-- Goes on after an expression of a level. -/
def goOn (inner : Parser Expr) (k : Nat) (rounds : Nat) (x : Expr) : Parser Expr :=
  if k = 7 then suffixesFrom inner rounds x
  else chainFrom (ranked inner (k + 1)) (joining k) rounds x

/-- The kind is of no operator at a level or a tighter one, and starts no suffix there. -/
structure Stops (k : Nat) (kind : TokenKind) : Prop where
  joining : ∀ j, k ≤ j → joining j kind = none
  dot : k ≤ 7 → kind ≠ .dot
  opening : k ≤ 7 → ∀ b, kind ≠ .opening b

namespace Stops

variable {k j : Nat} {kind : TokenKind}

theorem mono (h : Stops k kind) (hkj : k ≤ j) : Stops j kind where
  joining i hi := h.joining i (Nat.le_trans hkj hi)
  dot hj := h.dot (Nat.le_trans hkj hj)
  opening hj := h.opening (Nat.le_trans hkj hj)

/-- What an atom ends at is left to the levels around it. -/
theorem atom (kind : TokenKind) : Stops 8 kind where
  joining j hj := by
    obtain ⟨i, rfl⟩ := Nat.exists_eq_add_of_le' hj
    rfl
  dot h := absurd h (by decide)
  opening h := absurd h (by decide)

theorem of_joining (h : ∀ j ≤ 5, k ≤ j → Expr.joining j kind = none) (hdot : kind ≠ .dot)
    (hopening : ∀ b, kind ≠ .opening b) : Stops k kind where
  joining j hj := by
    by_cases h5 : j ≤ 5
    · exact h j h5 hj
    · obtain ⟨i, rfl⟩ := Nat.exists_eq_add_of_le' (Nat.lt_of_not_le h5)
      rfl
  dot _ := hdot
  opening _ := hopening

/-- An expression ends at a closing bracket, at a comma and at the end of its line. -/
theorem of_end (h : (∃ b, kind = .closing b) ∨ kind = .comma ∨ kind = .newline) :
    Stops 0 kind := by
  rcases h with ⟨b, rfl⟩ | rfl | rfl <;>
    exact of_joining (fun j hj _ => by interval_cases j <;> rfl) (by simp) (by simp)

theorem closing (b : Bracket) : Stops 0 (.closing b) := of_end (.inl ⟨b, rfl⟩)

theorem newline : Stops 0 .newline := of_end (.inr (.inr rfl))

theorem comma : Stops 0 .comma := of_end (.inr (.inl rfl))

/-! An operator ends its left operand. -/

theorem disjunction : Stops 1 (.keyword .or) :=
  of_joining (fun j hj hk => by interval_cases j <;> rfl) (by simp) (by simp)

theorem conjunction : Stops 2 (.keyword .and) :=
  of_joining (fun j hj hk => by interval_cases j <;> rfl) (by simp) (by simp)

theorem relation (op : Relation) : Stops 4 op.kind := by
  cases op <;>
    exact of_joining (fun j hj hk => by interval_cases j <;> rfl) (by simp [Relation.kind])
      (by simp [Relation.kind])

theorem arithmetic (op : ArithOp) : Stops (op.rank + 1) op.kind := by
  cases op <;>
    exact of_joining (fun j hj hk => by simp only [ArithOp.rank] at hk; interval_cases j <;> rfl)
      (by simp [ArithOp.kind]) (by simp [ArithOp.kind])

end Stops

variable {r : Reading} {inner : Parser Expr} {k rounds : Nat} {e x : Expr} {tail : List Token}
  {Q : Expr → List Token → Prop}

/-- The kind of the token in front. -/
def headKind (r : Reading) (ts : List Token) : TokenKind := (ts.headD r.ending.token).kind

theorem goOn_of_stops (hstop : Stops k (headKind r tail)) (h : Q x tail) :
    (goOn inner k rounds x).Yields r tail Q := by
  cases rounds with
  | zero =>
    rw [goOn]
    split <;> exact .exhausted (.pure h)
  | succ rounds =>
    rw [goOn]
    split
    · next hk =>
      have hdot := hstop.dot (by omega)
      have hopening := hstop.opening (by omega)
      refine .round (.bind (.here fun p => .bind (.kind ?_)))
      split
      · next heq => exact absurd heq hdot
      · next heq => exact absurd heq (hopening _)
      · next heq => exact absurd heq (hopening _)
      · exact .pure h
    · refine .round (.bind (.kind ?_))
      have hnone := hstop.joining k (Nat.le_refl k)
      rw [headKind] at hnone
      rw [hnone]
      exact .pure h

/-- At a level without operators nothing follows. -/
theorem yields_of_goOn (hk : k ≠ 7) (hnone : joining k = fun _ => none)
    (h : (goOn inner k rounds x).Yields r tail Q) : Q x tail := by
  obtain ⟨y, rest, hy, hQ⟩ := h
  rw [goOn, if_neg hk, hnone] at hy
  cases rounds with
  | zero =>
    cases hy
    exact hQ
  | succ rounds =>
    cases hy
    exact hQ

/-- Whatever follows, the tokens are read as an expression of a level, and the reader of the level
goes on after it. Places do not matter. -/
def ReadsAs (r : Reading) (inner : Parser Expr) (k : Nat) (ts : List Token) (e : Expr) : Prop :=
  ∀ tail Q, Stops (k + 1) (headKind r tail) →
    (∀ x rounds, x.unplaced = e.unplaced → tail.length < rounds →
      (goOn inner k rounds x).Yields r tail Q) →
    (ranked inner k).Yields r (ts ++ tail) Q

namespace ReadsAs

variable {ts : List Token} {t : Token}

/-- If the level stops after the tokens, just they are taken. -/
theorem whole (h : ReadsAs r inner k ts e) {tail : List Token}
    (hstop : Stops k (headKind r tail)) :
    (ranked inner k).Yields r (ts ++ tail) fun x rest => x.unplaced = e.unplaced ∧ rest = tail :=
  h tail _ (hstop.mono (Nat.le_succ k)) fun _ _ hx _ => goOn_of_stops hstop ⟨hx, rfl⟩

theorem of_atom (h : ∀ tail, (Expr.atom inner).Yields r (ts ++ tail) fun x rest =>
    x.unplaced = e.unplaced ∧ rest = tail) : ReadsAs r inner 8 ts e := by
  intro tail Q hstop hnext
  refine (h tail).leaves fun x hx => ?_
  exact yields_of_goOn (by decide) rfl (hnext x (tail.length + 1) hx (Nat.lt_succ_self _))

/-- Two operands with an operator of the level between them. -/
theorem join {left right : Expr} {tl tr : List Token} {combine : Position → Expr → Expr → Expr}
    (hk : k ≠ 7) (hleft : ReadsAs r inner k tl left) (hright : ReadsAs r inner (k + 1) tr right)
    (hjoining : joining k t.kind = some combine) (hstop : Stops (k + 1) t.kind)
    (he : ∀ p x y, x.unplaced = left.unplaced → y.unplaced = right.unplaced →
      (combine p x y).unplaced = e.unplaced) : ReadsAs r inner k (tl ++ t :: tr) e := by
  intro tail Q hstop' hnext
  rw [append_assoc]
  refine hleft _ Q hstop ?_
  intro x rounds hx hrounds
  -- The left operand is read, and one round of the loop takes the operator and the right one.
  cases rounds with
  | zero => cases hrounds
  | succ rounds =>
    rw [goOn, if_neg hk]
    refine .round (.bind (.kind ?_))
    rw [cons_append, headD_cons, hjoining]
    refine .bind (.here fun p => .bind (.advance (.bind ?_)))
    refine (hright.whole hstop').leaves fun y hy => ?_
    have hlength : tail.length < rounds := by
      simp only [length_append, length_cons] at hrounds
      omega
    have hgo := hnext (combine p x y) rounds (he p x y hx hy) hlength
    rw [goOn, if_neg hk] at hgo
    exact hgo.again _

theorem prefixed_cons (word : Keyword) (make : Position → Expr → Expr) (operand : Parser Expr) :
    prefixed word make operand r (t :: ts) =
      if t.kind = .keyword word then
        (prefixed word make operand >>= fun x => pure (make (t.position r.file) x)) r ts
      else operand r (t :: ts) := by
  change (if t.kind = .keyword word then _ else _ : Parser Expr) r (t :: ts) = _
  split <;> rfl

/-- The word of a level in front of an operand of the level. -/
theorem wrap {operand : Expr} {word : Keyword} {make : Position → Expr → Expr} (hk : k ≠ 7)
    (hnone : joining k = fun _ => none)
    (hranked : ranked inner k = prefixed word make (ranked inner (k + 1)))
    (hoperand : ReadsAs r inner k ts operand) (ht : t.kind = .keyword word)
    (he : ∀ p x, x.unplaced = operand.unplaced → (make p x).unplaced = e.unplaced) :
    ReadsAs r inner k (t :: ts) e := by
  intro tail Q hstop hnext
  have hread := hoperand tail (fun x rest => Q (make (t.position r.file) x) rest) hstop
    fun x rounds hx _ => by
      rw [goOn, if_neg hk, hnone]
      have hQ := yields_of_goOn hk hnone
        (hnext (make (t.position r.file) x) (tail.length + 1) (he _ x hx) (Nat.lt_succ_self _))
      cases rounds with
      | zero => exact .exhausted (.pure hQ)
      | succ rounds => exact .round (.bind (.kind (.pure hQ)))
  obtain ⟨x, rest, hx, hQ⟩ := hread
  refine ⟨_, rest, ?_, hQ⟩
  rw [hranked] at hx ⊢
  rw [cons_append, prefixed_cons, if_pos ht, bind_of_ok hx]
  rfl

/-- A suffix takes one round, whatever the level goes on with. -/
theorem suffix {object : Expr} {tsuf : List Token} (hobject : ReadsAs r inner 7 ts object)
    (hsuffix : tsuf ≠ [])
    (hstep : ∀ x rounds tail Q, x.unplaced = object.unplaced →
      (∀ y : Expr, y.unplaced = e.unplaced → (suffixesFrom inner rounds y).Yields r tail Q) →
      (suffixesFrom inner (rounds + 1) x).Yields r (tsuf ++ tail) Q) :
    ReadsAs r inner 7 (ts ++ tsuf) e := by
  intro tail Q _ hnext
  rw [append_assoc]
  refine hobject _ Q (Stops.atom _) ?_
  intro x rounds hx hrounds
  have hlength := length_pos_iff.mpr hsuffix
  rw [length_append] at hrounds
  cases rounds with
  | zero => cases hrounds
  | succ rounds =>
    refine hstep x rounds tail Q hx ?_
    intro y hy
    exact hnext y rounds hy (by omega)

/-- What a level reads is read by the next looser one, unless it starts with the word of that
level. -/
theorem lower (h : ReadsAs r inner (k + 1) (t :: ts) e) (hk : k < 8)
    (hfront : ∀ word, leading k = some word → t.kind ≠ .keyword word) :
    ReadsAs r inner k (t :: ts) e := by
  intro tail Q hstop hnext
  have hwhole := h.whole hstop
  -- The levels are of three kinds: chains of operators, leading words, and suffixes.
  have hchain : ∀ operator, joining k = operator → k ≠ 7 →
      (chain (ranked inner (k + 1)) operator).Yields r (t :: ts ++ tail) Q := by
    rintro _ rfl hk7
    refine .bind (hwhole.leaves fun x hx => ?_)
    have hgo := hnext x (tail.length + 1) hx (Nat.lt_succ_self _)
    rw [goOn, if_neg hk7] at hgo
    exact .bounded hgo
  have hprefixed : ∀ word make, leading k = some word → k ≠ 7 → joining k = (fun _ => none) →
      Yields (prefixed word make (ranked inner (k + 1))) r (t :: ts ++ tail) Q := by
    intro word make hword hk7 hnone
    obtain ⟨x, rest, hx, hread, hrest⟩ := hwhole
    have hQ := yields_of_goOn hk7 hnone (hnext x (tail.length + 1) hread (Nat.lt_succ_self _))
    refine ⟨x, rest, ?_, hrest ▸ hQ⟩
    rw [cons_append, prefixed_cons, if_neg (hfront word hword)]
    exact hx
  interval_cases k
  · exact hchain _ rfl (by decide)
  · exact hchain _ rfl (by decide)
  · exact hprefixed _ _ rfl (by decide) rfl
  · exact hchain _ rfl (by decide)
  · exact hchain _ rfl (by decide)
  · exact hchain _ rfl (by decide)
  · exact hprefixed _ _ rfl (by decide) rfl
  · refine .bind (hwhole.leaves fun x hx => ?_)
    exact .bounded (hnext x (tail.length + 1) hx (Nat.lt_succ_self _))

/-- What a level reads is read by all looser ones, down to a word in front. -/
theorem lower_to {j : Nat} (h : ReadsAs r inner j (t :: ts) e) (hj : j ≤ 8) (hkj : k ≤ j)
    (hfront : ∀ i < j, ∀ word, leading i = some word → t.kind ≠ .keyword word) :
    ReadsAs r inner k (t :: ts) e := by
  induction hkj using Nat.decreasingInduction with
  | self => exact h
  | of_succ i hi ih => exact ih.lower (by omega) (hfront i hi)

end ReadsAs

end Expr
end Stencil
