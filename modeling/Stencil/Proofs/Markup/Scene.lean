import Stencil.Proofs.Markup.Values

/-!
# Code and template at the same place

A scene relates an environment of the code to one of the template. They agree on all names that an
expression at that place may refer to. The key of the place has the same value in both, and goes on
having it in all environments that agree on the names in scope, because keys are copied into the
functions below.
-/
namespace Stencil

open Script (Interpretation Env)
open List

variable {V : Type} {R : Rendering V} {v w : Visibility} {ρ ρ' σ : Env V} {k : Script.Expr}
  {key : V} {name : String}

structure Scene (R : Rendering V) (v : Visibility) (ρ σ : Env V) (k : Script.Expr) (key : V) :
    Prop where
  plain : ∀ n ∈ v.bound, isSpecial n = false
  inBound : ∀ n ∈ v.visible, n ∈ v.bound
  agree : ∀ n, v.allows n = true → ρ n = σ n
  text : σ "String" = R.toText
  keyed : ∀ ρ' : Env V, (∀ n ∈ v.visible, ρ' n = σ n) → R.eval ρ' k = key

/-- Names that are still to be bound: no two are the same and none is in scope. -/
structure Fresh (v : Visibility) (names : List String) : Prop where
  nodup : names.Nodup
  bound : ∀ n ∈ names, n ∈ v.bound
  unseen : ∀ n ∈ names, n ∉ v.visible

namespace Fresh

variable {first rest : List String}

theorem left (h : Fresh v (first ++ rest)) : Fresh v first :=
  ⟨(nodup_append.mp h.nodup).1, fun n hn => h.bound n (mem_append_left _ hn),
    fun n hn => h.unseen n (mem_append_left _ hn)⟩

theorem right (h : Fresh v (first ++ rest)) : Fresh v rest :=
  ⟨(nodup_append.mp h.nodup).2.1, fun n hn => h.bound n (mem_append_right _ hn),
    fun n hn => h.unseen n (mem_append_right _ hn)⟩

theorem reveal (h : Fresh v (name :: rest)) : Fresh (v.reveal name) rest := by
  obtain ⟨hname, hrest⟩ := nodup_cons.mp h.nodup
  refine ⟨hrest, fun n hn => h.bound n (mem_cons_of_mem _ hn), fun n hn hvisible => ?_⟩
  rcases mem_cons.mp hvisible with rfl | hvisible
  · exact hname hn
  · exact h.unseen n (mem_cons_of_mem _ hn) hvisible

theorem not_allows (h : Fresh v rest) {n : String} (hn : n ∈ rest) : v.allows n = false := by
  have hbound := h.bound n hn
  have hunseen := h.unseen n hn
  simp [Visibility.allows, hbound, hunseen]

theorem enter {body : List Statement} (h : Fresh v rest) : Fresh (v.enter body) rest :=
  ⟨h.nodup, h.bound, h.unseen⟩

end Fresh

namespace Scene

variable (h : Scene R v ρ σ k key) {n : String} {x : Expr}

include h

theorem not_synthetic (hn : n ∈ v.bound) : isSynthetic n = false := by
  have hplain := h.plain n hn
  simp only [isSpecial, Bool.or_eq_false_iff] at hplain
  exact hplain.1.1

theorem ne_string (hn : n ∈ v.bound) : n ≠ "String" := by
  rintro rfl
  exact absurd (h.plain _ hn) (by decide)

theorem ne_oldNode (hn : n ∈ v.bound) : n ≠ "old_node" := by
  rintro rfl
  exact absurd (h.plain _ hn) (by decide)

theorem allows_visible (hn : n ∈ v.visible) : v.allows n := by
  simp [Visibility.allows, hn, h.not_synthetic (h.inBound n hn)]

theorem code_text : ρ "String" = R.toText := by
  have hbound : "String" ∉ v.bound := fun hn => h.ne_string hn rfl
  have hallows : v.allows "String" := by
    simp only [Visibility.allows, Bool.and_eq_true]
    exact ⟨by simp [hbound], by simp [show isSynthetic "String" = false by decide]⟩
  rw [h.agree _ hallows, h.text]

theorem key_eq : R.eval ρ k = key := h.keyed ρ fun n hn => h.agree n (h.allows_visible hn)

theorem value_eq (hx : v.covers x) : R.eval ρ x.lower = R.value σ x :=
  Rendering.eval_lower h.code_text x fun n hn => h.agree n (all_eq_true.mp hx n hn)

/-- Another environment of the code that keeps the names an expression may refer to. -/
theorem move (hbound : w.bound = v.bound) (hvisible : w.visible = v.visible)
    (hmove : ∀ n, w.allows n → v.allows n ∧ ρ' n = ρ n) : Scene R w ρ' σ k key where
  plain := hbound ▸ h.plain
  inBound := by rw [hbound, hvisible]; exact h.inBound
  agree n hn := by
    obtain ⟨hallows, hsame⟩ := hmove n hn
    rw [hsame, h.agree n hallows]
  text := h.text
  keyed := hvisible ▸ h.keyed

theorem rekey {k' : Script.Expr} {key' : V}
    (hkey : ∀ ρ' : Env V, R.eval ρ' k = key → R.eval ρ' k' = key') : Scene R v ρ σ k' key' :=
  { h with keyed := fun ρ' hρ => hkey ρ' (h.keyed ρ' hρ) }

theorem branch (i : Nat) :
    Scene R v ρ σ (k.concat [.string s!":{i}"]) (R.branchKey key i) := by
  refine h.rekey fun ρ' hk => ?_
  rw [Interpretation.eval_concat, hk]
  rfl

/-- A name comes into scope. -/
theorem reveal (a : V) (hbound : name ∈ v.bound) (hunseen : name ∉ v.visible) :
    Scene R (v.reveal name) (Function.update ρ name a) (Function.update σ name a) k key where
  plain := h.plain
  inBound := forall_mem_cons.mpr ⟨hbound, h.inBound⟩
  agree n hn := by
    by_cases hname : n = name
    · rw [hname, Function.update_self, Function.update_self]
    · rw [Function.update_of_ne hname, Function.update_of_ne hname]
      refine h.agree n ?_
      simpa [Visibility.allows, Visibility.reveal, hname] using hn
  text := by rw [Function.update_of_ne (h.ne_string hbound).symm, h.text]
  keyed ρ' hρ := by
    refine h.keyed ρ' fun n hn => ?_
    have hne : n ≠ name := by rintro rfl; exact hunseen hn
    rw [hρ n (mem_cons_of_mem _ hn), Function.update_of_ne hne]

/-- The variable of a loop comes into scope and into the key. -/
theorem item (a : V) (hbound : name ∈ v.bound) (hunseen : name ∉ v.visible) :
    Scene R (v.reveal name) (Function.update ρ name a) (Function.update σ name a)
      (k.concat [.string ":", .name name]) (R.itemKey key a) := by
  have hscene := h.reveal a hbound hunseen
  refine { hscene with keyed := fun ρ' hρ => ?_ }
  have hname : ρ' name = a := by
    rw [hρ name mem_cons_self, Function.update_self]
  rw [Interpretation.eval_concat, hscene.keyed ρ' hρ, map_cons, map_cons, map_nil,
    Interpretation.eval, Interpretation.eval, hname]
  rfl

/-- In a function of an event. -/
theorem event_value (hx : v.covers x) (a : V) :
    R.eval (Function.update ρ "ev" a) x.lower = R.value (Function.update σ "ev" a) x := by
  refine Rendering.eval_lower ?_ x fun n hn => ?_
  · rw [Function.update_of_ne (by decide), h.code_text]
  · by_cases hev : n = "ev"
    · rw [hev, Function.update_self, Function.update_self]
    · rw [Function.update_of_ne hev, Function.update_of_ne hev]
      exact h.agree n (all_eq_true.mp hx n hn)

end Scene
end Stencil
