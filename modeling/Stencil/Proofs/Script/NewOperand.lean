import Mathlib.Data.List.Basic
import Stencil.Proofs.Script.Places

/-!
# What `new` is applied to

An attribute, an item or a call is a step on what stands before it. In the grammar of the language
`new` takes the steps up to the first call, which gives its arguments, and the steps after that are
taken on the new object. The printer knows one strength for all steps, so it prints no parentheses
around an operand with a call inside. Main statement: the text for `new` is read back exactly if no
step but the last one of its operand is a call.
-/
namespace Stencil.Script

open List

/-! ## Steps -/

inductive Step where
  | attribute (name : String)
  | item (index : Expr)
  | call (arguments : List Expr)

namespace Step

def apply (x : Expr) : Step → Expr
  | .attribute name => .attribute x name
  | .item index => .item x index
  | .call arguments => .call x arguments

def isCall : Step → Bool
  | .call _ => true
  | _ => false

def pieces (depth : Nat) : Step → List Piece
  | .attribute name => [.text ".", .text name]
  | .item index => .text "[" :: index.pieces depth Level.lowest.rank ++ [.text "]"]
  | .call arguments => .text "(" :: argumentPieces depth arguments ++ [.text ")"]

end Step

namespace Expr

/-- Takes steps one after another. -/
def extend (x : Expr) (steps : List Step) : Expr := steps.foldl Step.apply x

/-- What the first step is taken on. -/
def base : Expr → Expr
  | .attribute x _ => x.base
  | .item x _ => x.base
  | .call x _ => x.base
  | e => e

def steps : Expr → List Step
  | .attribute x label => x.steps ++ [.attribute label]
  | .item x index => x.steps ++ [.item index]
  | .call x arguments => x.steps ++ [.call arguments]
  | _ => []

/-- A step is a call and not the last one. -/
def hasInnerCall (e : Expr) : Bool := e.steps.dropLast.any Step.isCall

/-- How often `new` stands in front. -/
def newCount : Expr → Nat
  | .new operand => operand.newCount + 1
  | _ => 0

/-- What follows the last `new` in front. -/
def innermost : Expr → Expr
  | .new operand => operand.innermost
  | e => e

def news : Nat → Expr → Expr
  | 0, x => x
  | n + 1, x => news n (.new x)

theorem extend_append (x : Expr) (first later : List Step) :
    x.extend (first ++ later) = (x.extend first).extend later := foldl_append

theorem extend_base_steps (e : Expr) : e.base.extend e.steps = e := by
  induction e using steps.induct with
  | case1 x label ih | case2 x index ih | case3 x arguments ih =>
    rw [steps, extend_append, base, ih]
    rfl
  | case4 e h1 h2 h3 => rw [steps.eq_4 e h1 h2 h3, base.eq_4 e h1 h2 h3]; rfl

theorem newCount_news (n : Nat) (x : Expr) : (news n x).newCount = x.newCount + n := by
  induction n generalizing x with
  | zero => rfl
  | succ n ih =>
    rw [news, ih, newCount]
    omega

theorem news_succ (n : Nat) (x : Expr) : news (n + 1) x = .new (news n x) := by
  induction n generalizing x with
  | zero => rfl
  | succ n ih => rw [news, ih, news]

theorem news_innermost (e : Expr) : news e.newCount e.innermost = e := by
  induction e using newCount.induct with
  | case1 operand ih => rw [newCount, innermost, news_succ, ih]
  | case2 e h => rw [newCount.eq_2 e h, innermost.eq_2 e h]; rfl

/-- The last step is on the outside. -/
theorem newCount_extend (x : Expr) {steps : List Step} (h : steps ≠ []) :
    (x.extend steps).newCount = 0 := by
  obtain ⟨before, last, rfl⟩ : ∃ before last, steps = before ++ [last] :=
    ⟨_, _, (dropLast_concat_getLast h).symm⟩
  rw [extend_append]
  cases last <;> rfl

end Expr

/-! ## The grammar -/

/-- What an operand of the operators is made of; a parenthesis is an atom. -/
inductive Symbol where
  | new
  | atom (x : Expr)
  | step (s : Step)

/-- Symbols that `new` takes with the arguments that follow, and what they stand for. -/
inductive Member : List Symbol → Expr → Prop where
  | atom (x : Expr) : Member [.atom x] x
  | step {w : List Symbol} {x : Expr} (h : Member w x) {s : Step} (hs : s.isCall = false) :
      Member (w ++ [.step s]) (s.apply x)
  | construct {w : List Symbol} {x : Expr} (h : Member w x) {s : Step} (hs : s.isCall = true) :
      Member (.new :: (w ++ [.step s])) (.new (s.apply x))

/-- Here `new` may go without arguments. -/
inductive Construction : List Symbol → Expr → Prop where
  | member {w : List Symbol} {x : Expr} (h : Member w x) : Construction w x
  | new {w : List Symbol} {x : Expr} (h : Construction w x) : Construction (.new :: w) (.new x)

/-- After a call that is no part of a construction all steps are alike. -/
inductive Invocation : List Symbol → Expr → Prop where
  | call {w : List Symbol} {x : Expr} (h : Member w x) {s : Step} (hs : s.isCall = true) :
      Invocation (w ++ [.step s]) (s.apply x)
  | step {w : List Symbol} {x : Expr} (h : Invocation w x) (s : Step) :
      Invocation (w ++ [.step s]) (s.apply x)

def Reads (w : List Symbol) (x : Expr) : Prop := Construction w x ∨ Invocation w x

def chain (n : Nat) (x : Expr) (steps : List Step) : List Symbol :=
  List.replicate n .new ++ .atom x :: steps.map .step

theorem chain_succ (n : Nat) (x : Expr) (steps : List Step) :
    chain (n + 1) x steps = .new :: chain n x steps := rfl

theorem chain_concat (n : Nat) (x : Expr) (steps : List Step) (s : Step) :
    chain n x (steps ++ [s]) = chain n x steps ++ [.step s] := by
  simp [chain]

variable {n : Nat} {x y : Expr} {steps : List Step} {s : Step} {w : List Symbol}

theorem chain_inj {m : Nat} {later : List Step} (h : chain n x steps = chain m y later) :
    n = m ∧ x = y ∧ steps = later := by
  induction n generalizing m with
  | zero =>
    cases m with
    | zero =>
      have hmap : Function.Injective Symbol.step := fun _ _ => Symbol.step.inj
      obtain ⟨hatom, hsteps⟩ := cons.inj h
      exact ⟨rfl, Symbol.atom.inj hatom, map_injective_iff.mpr hmap hsteps⟩
    | succ m => cases (cons.inj h).1
  | succ n ih =>
    cases m with
    | zero => cases (cons.inj h).1
    | succ m =>
      obtain ⟨rfl, hrest⟩ := ih (cons.inj h).2
      exact ⟨rfl, hrest⟩

/-! ## Reading a chain -/

/-- The steps that the last `new` in front takes. -/
def upToCall : List Step → List Step
  | [] => []
  | s :: rest => if s.isCall then [s] else s :: upToCall rest

def pastCall : List Step → List Step
  | [] => []
  | s :: rest => if s.isCall then rest else pastCall rest

/-- What a chain is read as. -/
def grouped : Nat → Expr → List Step → Expr
  | 0, x, steps => x.extend steps
  | n + 1, x, steps => grouped n (.new (x.extend (upToCall steps))) (pastCall steps)

theorem upToCall_append_pastCall (steps : List Step) :
    upToCall steps ++ pastCall steps = steps := by
  induction steps with
  | nil => rfl
  | cons s steps ih =>
    rw [upToCall, pastCall]
    split
    · rfl
    · rw [cons_append, ih]

theorem pastCall_eq_nil_iff (steps : List Step) :
    pastCall steps = [] ↔ steps.dropLast.any Step.isCall = false := by
  induction steps with
  | nil => simp [pastCall]
  | cons s steps ih =>
    rw [pastCall]
    cases steps with
    | nil => simp [pastCall]
    | cons t steps =>
      rw [dropLast_cons_cons, any_cons]
      by_cases hs : s.isCall
      · simp [hs]
      · rw [if_neg hs, ih]
        simp [hs]

theorem grouped_nil (n : Nat) (x : Expr) : grouped n x [] = x.news n := by
  induction n generalizing x with
  | zero => rfl
  | succ n ih => exact ih (.new x)

theorem grouped_member (n : Nat) (x : Expr) (hs : s.isCall = false) (rest : List Step) :
    grouped n x (s :: rest) = grouped n (s.apply x) rest := by
  cases n with
  | zero => rfl
  | succ n =>
    rw [grouped, upToCall, pastCall, hs]
    rfl

theorem grouped_call (n : Nat) (x : Expr) (hs : s.isCall) (rest : List Step) :
    grouped (n + 1) x (s :: rest) = grouped n (.new (s.apply x)) rest := by
  rw [grouped, upToCall, pastCall, hs]
  rfl

/-! ## The grammar reads a chain in one way -/

/-- The steps after a member are read as if it were an atom. -/
theorem Member.grouped {w : List Symbol} {y : Expr} (h : Member w y) :
    ∃ n x steps, w = chain n x steps ∧
      ∀ m rest, grouped (n + m) x (steps ++ rest) = grouped m y rest := by
  induction h with
  | atom x => exact ⟨0, x, [], rfl, fun m rest => by rw [Nat.zero_add, nil_append]⟩
  | step _ hs ih =>
    obtain ⟨n, x, steps, rfl, hgrouped⟩ := ih
    refine ⟨n, x, steps ++ [_], (chain_concat ..).symm, fun m rest => ?_⟩
    rw [append_assoc, singleton_append, hgrouped, grouped_member _ _ hs]
  | @construct _ _ _ s hs ih =>
    obtain ⟨n, x, steps, rfl, hgrouped⟩ := ih
    refine ⟨n + 1, x, steps ++ [s], ?_, fun m rest => ?_⟩
    · rw [chain_succ, chain_concat]
    · rw [append_assoc, singleton_append, Nat.add_assoc, Nat.add_comm 1, hgrouped,
        grouped_call _ _ hs]

theorem Construction.grouped {w : List Symbol} {y : Expr} (h : Construction w y) :
    ∃ n x steps, w = chain n x steps ∧ ∀ m, grouped (n + m) x steps = y.news m := by
  induction h with
  | member h =>
    obtain ⟨n, x, steps, hw, hgrouped⟩ := h.grouped
    refine ⟨n, x, steps, hw, fun m => ?_⟩
    have hend := hgrouped m []
    rwa [append_nil, grouped_nil] at hend
  | new _ ih =>
    obtain ⟨n, x, steps, rfl, hgrouped⟩ := ih
    refine ⟨n + 1, x, steps, rfl, fun m => ?_⟩
    rw [Nat.add_assoc, Nat.add_comm 1, hgrouped, Expr.news]

theorem Invocation.grouped {w : List Symbol} {y : Expr} (h : Invocation w y) :
    ∃ n x steps, w = chain n x steps ∧
      ∀ rest, grouped n x (steps ++ rest) = y.extend rest := by
  induction h with
  | call h hs =>
    obtain ⟨n, x, steps, rfl, hgrouped⟩ := h.grouped
    refine ⟨n, x, steps ++ [_], (chain_concat ..).symm, fun rest => ?_⟩
    rw [append_assoc, singleton_append]
    exact hgrouped 0 (_ :: rest)
  | step _ s ih =>
    obtain ⟨n, x, steps, rfl, hgrouped⟩ := ih
    refine ⟨n, x, steps ++ [s], (chain_concat ..).symm, fun rest => ?_⟩
    rw [append_assoc, singleton_append, hgrouped]
    rfl

theorem Reads.eq_grouped (h : Reads (chain n x steps) y) : y = grouped n x steps := by
  rcases h with h | h
  · obtain ⟨m, z, later, hchain, hgrouped⟩ := h.grouped
    obtain ⟨rfl, rfl, rfl⟩ := chain_inj hchain
    exact (hgrouped 0).symm
  · obtain ⟨m, z, later, hchain, hgrouped⟩ := h.grouped
    obtain ⟨rfl, rfl, rfl⟩ := chain_inj hchain
    have hend := hgrouped []
    rw [append_nil] at hend
    exact hend.symm

theorem Invocation.extend (h : Invocation w x) (steps : List Step) :
    Invocation (w ++ steps.map .step) (x.extend steps) := by
  induction steps generalizing w x with
  | nil =>
    rw [map_nil, append_nil]
    exact h
  | cons s steps ih =>
    have hlater := ih (h.step s)
    rwa [append_assoc] at hlater

/-- Steps after a member, if nothing else is to be read. -/
theorem Member.reads (h : Member w x) (steps : List Step) :
    Reads (w ++ steps.map .step) (x.extend steps) := by
  induction steps generalizing w x with
  | nil =>
    rw [map_nil, append_nil]
    exact .inl (.member h)
  | cons s steps ih =>
    by_cases hs : s.isCall
    · have hlater := (Invocation.call h hs).extend steps
      rw [append_assoc] at hlater
      exact .inr hlater
    · have hlater := ih (h.step (Bool.eq_false_iff.mpr hs))
      rwa [append_assoc] at hlater

theorem Construction.news (h : Construction w x) (n : Nat) :
    Construction (replicate n .new ++ w) (x.news n) := by
  induction n with
  | zero => exact h
  | succ n ih =>
    rw [Expr.news_succ]
    exact .new ih

/-- The last `new` takes its steps, and is then a member itself if these end with a call. -/
theorem Member.reads_news (h : Member w x) (n : Nat) (steps : List Step) :
    Reads (replicate n .new ++ (w ++ steps.map .step)) (Stencil.Script.grouped n x steps) := by
  induction n generalizing w x steps with
  | zero => exact h.reads steps
  | succ n ih =>
    -- The inner induction looks for the call that gives the last new its arguments.
    induction steps generalizing w x with
    | nil =>
      rw [grouped_nil, map_nil, append_nil]
      exact .inl ((Construction.member h).news (n + 1))
    | cons s steps ihSteps =>
      by_cases hs : s.isCall
      · have hlater := ih (h.construct hs) steps
        rw [grouped_call _ _ hs, replicate_succ', append_assoc]
        simpa using hlater
      · have hs := Bool.eq_false_iff.mpr hs
        have hlater := ihSteps (h.step hs)
        rw [grouped_member _ _ hs]
        simpa using hlater

theorem reads_chain_iff (n : Nat) (x : Expr) (steps : List Step) (y : Expr) :
    Reads (chain n x steps) y ↔ y = grouped n x steps := by
  constructor
  · exact Reads.eq_grouped
  · rintro rfl
    exact (Member.atom x).reads_news n steps

/-! ## Which chains are read back -/

/-- A step that is left over is taken outside of a `new`. -/
theorem newCount_grouped_le (n : Nat) (x : Expr) (h : steps ≠ []) :
    (grouped n x steps).newCount ≤ n := by
  induction n generalizing x steps with
  | zero => exact Nat.le_of_eq (Expr.newCount_extend x h)
  | succ n ih =>
    rw [grouped]
    by_cases hpast : pastCall steps = []
    · have hall := upToCall_append_pastCall steps
      rw [hpast, append_nil] at hall
      rw [hpast, hall, grouped_nil, Expr.newCount_news, Expr.newCount, Expr.newCount_extend x h]
      omega
    · have hle := ih (.new (x.extend (upToCall steps))) hpast
      omega

theorem grouped_succ_eq_iff (n : Nat) (x : Expr) (steps : List Step) :
    grouped (n + 1) x steps = Expr.news (n + 1) (x.extend steps) ↔
      steps.dropLast.any Step.isCall = false := by
  rw [← pastCall_eq_nil_iff, grouped]
  constructor
  · intro h
    -- With steps left over, one new in front is lost.
    by_contra hpast
    have hle := newCount_grouped_le n (.new (x.extend (upToCall steps))) hpast
    rw [h, Expr.newCount_news] at hle
    omega
  · intro hpast
    have hall := upToCall_append_pastCall steps
    rw [hpast, append_nil] at hall
    rw [hpast, hall, grouped_nil]
    rfl

/-! ## What is printed -/

namespace Symbol

def pieces (depth : Nat) : Symbol → List Piece
  | .new => [.text "new "]
  | .atom x => x.pieces depth Level.call.rank
  | .step s => s.pieces depth

end Symbol

namespace Expr

/-- The symbols of an expression that stands where `new` may stand. -/
def symbols (e : Expr) : List Symbol := chain e.newCount e.innermost.base e.innermost.steps

theorem pieces_steps (depth : Nat) (e : Expr) :
    e.pieces depth Level.call.rank =
      e.base.pieces depth Level.call.rank ++ e.steps.flatMap (Step.pieces depth) := by
  induction e using steps.induct with
  | case1 x label ih =>
    rw [base, steps, flatMap_append, ← append_assoc, ← ih, pieces]
    rfl
  | case2 x index ih | case3 x arguments ih =>
    rw [base, steps, flatMap_append, ← append_assoc, ← ih, pieces, flatMap_singleton]
    exact append_assoc ..
  | case4 e h1 h2 h3 =>
    rw [base.eq_4 e h1 h2 h3, steps.eq_4 e h1 h2 h3, flatMap_nil, append_nil]

variable {e : Expr}

/-- Only a `new` of its own needs parentheses to become the base of steps. -/
theorem pieces_new_rank (depth : Nat) (h : ∀ x, e ≠ .new x) :
    e.pieces depth Level.new.rank = e.pieces depth Level.call.rank := by
  have hlevel : e.level ≠ .new := by
    cases e with
    | new x => exact absurd rfl (h x)
    | operation op left right =>
      cases op with
      | arith op => cases op <;> exact nofun
      | relation op => cases op <;> exact nofun
      | otherArith | otherRelation => exact nofun
    | _ => exact nofun
  have hrank : decide (e.level.rank < Level.new.rank) =
      decide (e.level.rank < Level.call.rank) := by
    revert hlevel
    cases e.level <;> decide
  calc e.pieces depth Level.new.rank
      = enclose (e.level.rank < Level.new.rank) (e.pieces depth 0) :=
        pieces_eq_enclose depth (by decide) e
    _ = enclose (e.level.rank < Level.call.rank) (e.pieces depth 0) := by rw [hrank]
    _ = e.pieces depth Level.call.rank := (pieces_eq_enclose depth (by decide) e).symm

theorem pieces_symbols (depth : Nat) (e : Expr) :
    e.pieces depth Level.new.rank = e.symbols.flatMap (Symbol.pieces depth) := by
  induction e using newCount.induct with
  | case1 operand ih =>
    rw [symbols, newCount, innermost, chain_succ, flatMap_cons, ← symbols, ← ih, pieces]
    rfl
  | case2 e h =>
    rw [symbols, newCount.eq_2 e h, innermost.eq_2 e h, pieces_new_rank depth h, pieces_steps,
      chain, replicate_zero, nil_append, flatMap_cons, flatMap_map]
    rfl

/-- An expression with steps is neither a `new` nor put in parentheses after one. -/
theorem innermost_of_steps (h : e.steps ≠ []) (depth : Nat) :
    e.innermost = e ∧ e.pieces depth Level.new.rank = e.pieces depth Level.lowest.rank := by
  cases e with
  | «attribute» | item | call => exact ⟨rfl, rfl⟩
  | _ => exact absurd rfl h

end Expr

/-- The text for `new` has one reading, which is the expression exactly if the operand has no call
inside. An operand with such a call is never put in parentheses. -/
theorem new_read_whole_iff (x : Expr) (depth rank : Nat) :
    (Expr.new x).pieces depth rank = enclose (Level.new.rank < rank)
        ((Expr.new x).symbols.flatMap (Symbol.pieces depth)) ∧
      (∃! y, Reads (Expr.new x).symbols y) ∧
      (Reads (Expr.new x).symbols (.new x) ↔ x.innermost.hasInnerCall = false) ∧
      (x.hasInnerCall = true → x.innermost = x ∧
        x.pieces depth Level.new.rank = x.pieces depth Level.lowest.rank) := by
  refine ⟨?_, ⟨_, (reads_chain_iff ..).mpr rfl, fun y => (reads_chain_iff ..).mp⟩, ?_, ?_⟩
  · rw [← Expr.pieces_symbols, Expr.pieces, Expr.pieces]
    rfl
  · have hnew : Expr.new x = Expr.news (x.newCount + 1)
        (x.innermost.base.extend x.innermost.steps) := by
      rw [Expr.extend_base_steps, Expr.news_succ, Expr.news_innermost]
    rw [Expr.symbols, reads_chain_iff, Expr.hasInnerCall, ← grouped_succ_eq_iff x.newCount, ← hnew]
    exact eq_comm
  · intro h
    have hsteps : x.steps ≠ [] := by
      intro hnil
      rw [Expr.hasInnerCall, hnil] at h
      cases h
    exact Expr.innermost_of_steps hsteps depth

/-- A method of what a call gives: `new` takes the call and leaves the attribute. -/
theorem new_cuts_inner_call :
    (Expr.attribute (.call (.name "f") []) "g").hasInnerCall = true ∧
      Code.text 2 [.expr (.new (.attribute (.call (.name "f") []) "g"))] = "new f().g;\n" ∧
      Reads (Expr.new (.attribute (.call (.name "f") []) "g")).symbols
        (.attribute (.new (.call (.name "f") [])) "g") ∧
      ¬ Reads (Expr.new (.attribute (.call (.name "f") []) "g")).symbols
        (.new (.attribute (.call (.name "f") []) "g")) := by
  refine ⟨rfl, by decide +kernel, (reads_chain_iff ..).mpr rfl, fun h => ?_⟩
  cases (reads_chain_iff ..).mp h

end Stencil.Script
