import Stencil.Proofs.Token.Endings

/-!
# The pace of readers

What the log of a reader tells, put together the way the reader is: how often it goes over a token,
which texts it has split, and that it goes on with a loop or with a nested part only if fewer tokens
are left than at the last start.
-/
namespace Stencil
namespace Parser

open List

variable {α β : Type}

section Logs

variable {p : Parser α} {f : α → Parser β} {reading : Reading} {ts rest : List Token}

theorem log_bind_of_ok {a : α} (h : p reading ts = .ok (a, rest)) :
    (p >>= f).log reading ts = p.log reading ts ++ (f a).log reading rest := by
  change (Parser.bind p f).log reading ts = _
  simp only [Parser.bind, h]

theorem log_bind_of_error {fault : Fault} (h : p reading ts = .error fault) :
    (p >>= f).log reading ts = p.log reading ts := by
  change (Parser.bind p f).log reading ts = _
  simp only [Parser.bind, h, append_nil]

end Logs

/-- The reader goes over no more tokens than there are, up to a number of steps past the end. The
texts that it splits are known. Whatever starts over has fewer tokens left than before, and nothing
is used up. -/
structure Paces (reading : Reading) (T : String → Prop) (spare : Nat) (p : Parser α)
    (ts : List Token) : Prop where
  advances : (p.log reading ts).count .advance ≤ ts.length + spare
  splits : ∀ text, .split text ∈ p.log reading ts → T text
  decreases : ∀ before now, .again before now ∈ p.log reading ts → now < before
  lasts : .exhausted ∉ p.log reading ts

namespace Paces

variable {reading : Reading} {T : String → Prop} {spare : Nat} {p : Parser α} {f : α → Parser β}
  {ts : List Token}

theorem of_nil (h : p.log reading ts = []) : Paces reading T spare p ts := by
  constructor <;> rw [h]
  · exact Nat.zero_le _
  · exact fun _ h => absurd h not_mem_nil
  · exact fun _ _ h => absurd h not_mem_nil
  · exact not_mem_nil

theorem advance (h : 0 < ts.length + spare) : Paces reading T spare Parser.advance ts where
  advances := h
  splits _ hmem := by cases mem_singleton.mp hmem
  decreases _ _ hmem := by cases mem_singleton.mp hmem
  lasts hmem := by cases mem_singleton.mp hmem

theorem split {text : String} (h : T text) : Paces reading T spare (Parser.split text) ts where
  advances := Nat.zero_le _
  splits _ hmem := by cases mem_singleton.mp hmem; exact h
  decreases _ _ hmem := by cases mem_singleton.mp hmem
  lasts hmem := by cases mem_singleton.mp hmem

theorem bind (hp : Paces reading T 0 p ts)
    (hf : ∀ a rest, p reading ts = .ok (a, rest) → Paces reading T spare (f a) rest) :
    Paces reading T spare (p >>= f) ts := by
  cases hresult : p reading ts with
  | error fault =>
    have hlog := log_bind_of_error (f := f) hresult
    constructor <;> rw [hlog]
    · exact Nat.le_trans hp.advances (Nat.le_add_right _ _)
    · exact hp.splits
    · exact hp.decreases
    · exact hp.lasts
  | ok result =>
    have hlater := hf _ _ hresult
    have hlog := log_bind_of_ok (f := f) hresult
    constructor <;> rw [hlog]
    · have hfront := hp.advances
      have hback := hlater.advances
      have hleft := congrArg length (p.rest_eq hresult)
      rw [length_drop] at hleft
      rw [count_append]
      omega
    · exact fun text hmem => (mem_append.mp hmem).elim (hp.splits text) (hlater.splits text)
    · exact fun before now hmem =>
        (mem_append.mp hmem).elim (hp.decreases before now) (hlater.decreases before now)
    · exact fun hmem => (mem_append.mp hmem).elim hp.lasts hlater.lasts

theorem again (hp : Paces reading T spare p ts) {before : Nat} (h : ts.length < before) :
    Paces reading T spare (Parser.again before p) ts where
  advances := by
    change count _ (.again before ts.length :: p.log reading ts) ≤ _
    rw [count_cons_of_ne Action.noConfusion]
    exact hp.advances
  splits text hmem := by
    cases hmem with
    | tail _ hmem => exact hp.splits text hmem
  decreases _ _ hmem := by
    cases hmem with
    | head => exact h
    | tail _ hmem => exact hp.decreases _ _ hmem
  lasts hmem := by
    cases hmem with
    | tail _ hmem => exact hp.lasts hmem

/-- What is made for the tokens that are left goes at the pace of what is made. -/
theorem measured {make : Nat → Parser α} (h : Paces reading T spare (make ts.length) ts) :
    Paces reading T spare (Parser.measured make) ts :=
  ⟨h.advances, h.splits, h.decreases, h.lasts⟩

end Paces
end Parser
end Stencil
