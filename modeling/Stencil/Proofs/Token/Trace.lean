import Stencil.Proofs.Token.Steps

/-!
# Whole scans

The tokens that a scanner goes through, one scan after another. Every scan but the last uses up
some of what is left to do, so a whole scan ends before its budget does.
-/
namespace Stencil

open Text (Cluster)
open List

namespace Lexer

/-- The scanner goes through these tokens, without a fault and not past the end. -/
inductive Trace : Lexer → List Token → Lexer → Prop where
  | refl (l : Lexer) : Trace l [] l
  | step {l m n : Lexer} {t : Token} {ts : List Token} (hl : l.fault = none)
      (hscan : l.scan = .ok (t, m)) (hkind : t.kind ≠ .eof)
      (hlater : Trace { m with last := t.kind } ts n) : Trace l (t :: ts) n

/-- The scanner after a number of tokens, whatever they are. -/
def after : Nat → Lexer → Lexer
  | 0, l => l
  | n + 1, l => after n l.next.2

variable {l m n : Lexer} {t : Token} {ts us : List Token} {taken : List Cluster} {kind : TokenKind}
  {literal : String} {scan : Scan}

theorem step_of_scan (h : l.scan = .ok (t, m)) : l.Step t m := by
  have hfollows := follows_scan l
  rwa [h] at hfollows

theorem stuck_of_scan {fault : Fault} (h : l.scan = .error ((t, fault), m)) : l.Stuck t m := by
  have hfollows := follows_scan l
  rwa [h] at hfollows

/-- Over which clusters a step goes. -/
theorem Step.passes (h : l.Step t m) : ∃ skipped taken, l.Passes skipped taken m := by
  cases h with
  | content hpass | indent _ hpass | dedent _ hpass | pending hpass | lastLine hpass
  | lastLevel hpass | eof hpass => exact ⟨_, _, hpass⟩

theorem fault_of_scan (h : l.scan = .ok (t, m)) : m.fault = l.fault := by
  obtain ⟨skipped, taken, hpass⟩ := (step_of_scan h).passes
  exact hpass.fault

theorem after_add (j k : Nat) (l : Lexer) : l.after (j + k) = (l.after j).after k := by
  induction j generalizing l with
  | zero => rw [Nat.zero_add, after]
  | succ j ih => rw [Nat.add_right_comm, after, after, ih]

theorem next_of_scan (hl : l.fault = none) (h : l.scan = .ok (t, m)) :
    l.next = (t, { m with last := t.kind }) := by
  rw [next, hl, h]

/-- The next token is the one of a fault long ago, or it comes from a scan. -/
theorem next_cases (l : Lexer) :
    (∃ fault, l.fault = some fault ∧ l.next = (fault.1, l)) ∨
      (∃ t m, l.fault = none ∧ l.scan = .ok (t, m) ∧ l.next = (t, { m with last := t.kind })) ∨
      ∃ t fault m, l.fault = none ∧ l.scan = .error ((t, fault), m) ∧
        l.next = (t, { m with fault := some (t, fault) }) := by
  unfold next
  cases hfault : l.fault with
  | some fault => exact .inl ⟨fault, rfl, rfl⟩
  | none =>
    refine .inr ?_
    cases hscan : l.scan with
    | ok result => exact .inl ⟨result.1, result.2, rfl, rfl, rfl⟩
    | error failure => exact .inr ⟨failure.1.1, failure.1.2, failure.2, rfl, rfl, rfl⟩

namespace Trace

theorem trans (h : l.Trace ts m) (h' : m.Trace us n) : l.Trace (ts ++ us) n := by
  induction h with
  | refl => exact h'
  | step hl hscan hkind _ ih => exact .step hl hscan hkind (ih h')

theorem append (h : l.Trace (ts ++ us) n) : ∃ m, l.Trace ts m ∧ m.Trace us n := by
  induction ts generalizing l with
  | nil => exact ⟨l, .refl l, h⟩
  | cons t ts ih =>
    cases h with
    | step hl hscan hkind hlater =>
      obtain ⟨m, hm, hn⟩ := ih hlater
      exact ⟨m, .step hl hscan hkind hm, hn⟩

theorem fault (h : l.Trace ts m) (hl : l.fault = none) : m.fault = none := by
  induction h with
  | refl => exact hl
  | step hl hscan _ _ ih => exact ih ((fault_of_scan hscan).trans hl)

theorem kind_ne_eof (h : l.Trace ts m) : ∀ u ∈ ts, u.kind ≠ .eof := by
  induction h with
  | refl => simp
  | step _ _ hkind _ ih => exact forall_mem_cons.mpr ⟨hkind, ih⟩

theorem after_eq (h : l.Trace ts m) : l.after ts.length = m := by
  induction h with
  | refl => rfl
  | step hl hscan _ _ ih => rw [length_cons, after, next_of_scan hl hscan, ih]

/-- The scanner between two tokens on the way. -/
theorem between (h : l.Trace ts m) {n : Nat} (hn : n ≤ ts.length) :
    l.Trace (ts.take n) (l.after n) ∧ (l.after n).Trace (ts.drop n) m := by
  rw [← take_append_drop n ts] at h
  obtain ⟨k, hfirst, hlater⟩ := h.append
  have hafter := hfirst.after_eq
  rw [length_take, Nat.min_eq_left hn] at hafter
  rw [hafter]
  exact ⟨hfirst, hlater⟩

theorem next_eq (h : l.Trace (t :: ts) m) : l.next.1 = t := by
  cases h with
  | step hl hscan => rw [next_of_scan hl hscan]

/-- The scan of a text starts with the tokens on the way. -/
theorem run_eq (h : l.Trace ts m) (budget : Nat) :
    run (ts.length + budget) l = ⟨ts ++ (run budget m).tokens, (run budget m).ending⟩ := by
  induction h with
  | refl => rw [length_nil, Nat.zero_add]; rfl
  | @step l m n t ts hl hscan hkind hlater ih =>
    have hm : m.fault = none := (fault_of_scan hscan).trans hl
    rw [length_cons, Nat.add_right_comm, run, next_of_scan hl hscan]
    dsimp only
    rw [hm]
    dsimp only
    rw [if_neg hkind, ← hm, ih]
    rfl

end Trace

/-! ## The budget -/

/-- What is left to do: the clusters, twice since each may open a level, the levels that are open,
and the end of the last line. -/
def work (l : Lexer) : Nat :=
  2 * l.cursor.rest.length + l.indents.length + if isLayout l.last then 0 else 1

theorem Passes.length_eq {skipped : List Cluster} (h : l.Passes skipped taken m) :
    l.cursor.rest.length = skipped.length + taken.length + m.cursor.rest.length := by
  rw [h.rest, length_append, length_append]
  omega

theorem Cut.taken_ne_nil (h : Cut kind taken literal) : taken ≠ [] := by
  cases h with
  | whole hne => exact hne
  | opening | closing => exact cons_ne_nil _ _

theorem Cut.kind_ne (h : Cut kind taken literal) :
    kind ≠ .indent ∧ kind ≠ .dedent ∧ kind ≠ .eof ∧ kind ≠ .error := by
  cases h with
  | whole _ hkind => exact hkind
  | opening b | closing b => simp

/-- The source ends after all levels were closed. -/
theorem Step.of_eof (h : l.Step t m) (hkind : t.kind = .eof) :
    t = m.token .eof "" ∧ (∃ skipped, l.Passes skipped [] m) ∧ m.cursor.rest = [] ∧
      m.indents = l.indents ∧ l.indents.length ≤ 1 := by
  cases h with
  | content hpass hcut => exact absurd hkind hcut.kind_ne.2.2.1
  | indent | dedent | lastLine | lastLevel => cases hkind
  | pending hpass hmark =>
    rw [hmark.1] at hkind
    cases hkind
  | eof hpass hend hindents hlength => exact ⟨rfl, ⟨_, hpass⟩, hend, hindents, hlength⟩

/-- There is a level to close if it lies above a margin. -/
theorem length_tail {levels : List Nat} {width : Nat} (h : width < levels.headD 0) :
    levels.length = levels.tail.length + 1 := by
  cases levels with
  | nil => cases h
  | cons level levels => rfl

theorem Step.work_lt (h : l.Step t m) (hkind : t.kind ≠ .eof) :
    work { m with last := t.kind } < l.work := by
  have hrest : m.cursor.rest.length ≤ l.cursor.rest.length := by
    obtain ⟨skipped, taken, hpass⟩ := h.passes
    have := hpass.length_eq
    omega
  have hone : ∀ kind, (if isLayout kind then 0 else 1) ≤ 1 := by
    intro kind
    split <;> omega
  unfold work
  cases h with
  | content hpass hcut hoffset hindents =>
    have hlength := hpass.length_eq
    have htaken := length_pos_iff.mpr hcut.taken_ne_nil
    have := hone t.kind
    simp only [hindents]
    omega
  | indent width hpass hne hwidth hindents =>
    have hlength := hpass.length_eq
    have hskipped := length_pos_iff.mpr hne
    simp only [hindents, length_cons, token, isLayout]
    simp
    omega
  | dedent width hpass hwidth hindents =>
    have := length_tail hwidth
    simp only [hindents, token, isLayout]
    simp
    omega
  | pending hpass hmark hoffset hwidth hindents hline hblank =>
    have := length_tail hwidth
    simp only [hindents, hmark.1, isLayout]
    simp
    omega
  | lastLine hpass hend hlast hindents =>
    simp only [hindents, token, isLayout, hlast]
    simp
    omega
  | lastLevel hpass hend hindents hne =>
    simp only [hindents, token, isLayout]
    simp
    omega
  | eof hpass hend hindents hlength => exact absurd rfl hkind

theorem Trace.length_add_work (h : l.Trace ts m) : ts.length + m.work ≤ l.work := by
  induction h with
  | refl => simp
  | step hl hscan hkind hlater ih =>
    have := (step_of_scan hscan).work_lt hkind
    rw [length_cons]
    omega

/-- The scanner goes on like this, to the end of its source or to a fault. -/
inductive Ends (l : Lexer) : Scan → Prop where
  | eof {ts : List Token} {t : Token} {m n : Lexer} (htrace : l.Trace ts m)
      (hscan : m.scan = .ok (t, n)) (hkind : t.kind = .eof) : Ends l ⟨ts, .eof t⟩
  | fault {ts : List Token} {t : Token} {fault : Fault} {m n : Lexer} (htrace : l.Trace ts m)
      (hscan : m.scan = .error ((t, fault), n)) : Ends l ⟨ts, .fault t fault⟩

theorem Ends.step (hl : l.fault = none) (hscan : l.scan = .ok (t, m)) (hkind : t.kind ≠ .eof)
    (h : Ends { m with last := t.kind } scan) : l.Ends ⟨t :: scan.tokens, scan.ending⟩ := by
  cases h with
  | eof htrace hend heof => exact .eof (.step hl hscan hkind htrace) hend heof
  | fault htrace hend => exact .fault (.step hl hscan hkind htrace) hend

/-- Within its budget every scanner gets to an end. -/
theorem ends_run {budget : Nat} (hbudget : l.work < budget) (hl : l.fault = none) :
    l.Ends (l.run budget) := by
  induction budget generalizing l with
  | zero => omega
  | succ budget ih =>
    rw [run]
    rcases next_cases l with ⟨fault, hfault, _⟩ | ⟨u, m, _, hscan, hnext⟩ |
      ⟨u, fault, m, _, hscan, hnext⟩
    · rw [hl] at hfault
      cases hfault
    · have hm : m.fault = none := (fault_of_scan hscan).trans hl
      rw [hnext]
      dsimp only
      rw [hm]
      dsimp only
      by_cases hkind : u.kind = .eof
      · rw [if_pos hkind]
        exact .eof (.refl l) hscan hkind
      · rw [if_neg hkind, ← hm]
        have hwork := (step_of_scan hscan).work_lt hkind
        exact (ih (l := { m with last := u.kind }) (by omega) hm).step hl hscan hkind
    · rw [hnext]
      exact .fault (.refl l) hscan

theorem Ends.of_scan_eq {j : Lexer} (h : j.Ends scan) (hscan : l.scan = j.scan)
    (hfault : l.fault = j.fault) : l.Ends scan := by
  cases h with
  | eof htrace hend hkind =>
    cases htrace with
    | refl => exact .eof (.refl l) (hscan.trans hend) hkind
    | step hj hnext hne hlater =>
      exact .eof (.step (hfault.trans hj) (hscan.trans hnext) hne hlater) hend hkind
  | fault htrace hend =>
    cases htrace with
    | refl => exact .fault (.refl l) (hscan.trans hend)
    | step hj hnext hne hlater =>
      exact .fault (.step (hfault.trans hj) (hscan.trans hnext) hne hlater) hend

/-- What each scan keeps, and what each gives of its token, holds of all tokens on the way. -/
theorem Trace.all_tokens {P : Token → Prop} {I : Lexer → Prop}
    (hstep : ∀ l t m, I l → l.scan = .ok (t, m) → P t ∧ I { m with last := t.kind })
    (h : l.Trace ts m) (hl : I l) : (∀ t ∈ ts, P t) ∧ I m := by
  induction h with
  | refl => exact ⟨fun t ht => absurd ht not_mem_nil, hl⟩
  | step _ hscan _ _ ih =>
    obtain ⟨ht, hnext⟩ := hstep _ _ _ hl hscan
    obtain ⟨hlater, hm⟩ := ih hnext
    exact ⟨forall_mem_cons.mpr ⟨ht, hlater⟩, hm⟩

namespace Ends

variable {scan : Scan}

theorem all_tokens {P : Token → Prop} {I : Lexer → Prop} (herror : ∀ t, t.kind = .error → P t)
    (hstep : ∀ l t m, I l → l.scan = .ok (t, m) → P t ∧ I { m with last := t.kind })
    (h : l.Ends scan) (hl : I l) : (∀ t ∈ scan.tokens, P t) ∧ P scan.ending.token := by
  cases h with
  | eof htrace hend =>
    obtain ⟨htokens, hm⟩ := htrace.all_tokens hstep hl
    exact ⟨htokens, (hstep _ _ _ hm hend).1⟩
  | fault htrace hend =>
    cases stuck_of_scan hend with
    | intro _ hkind => exact ⟨(htrace.all_tokens hstep hl).1, herror _ hkind⟩

/-- However a scan ends, only the last token stands for it. -/
theorem kinds (h : l.Ends scan) : (∀ t ∈ scan.tokens, t.kind ≠ .eof) ∧
    ((∃ t, scan.ending = .eof t ∧ t.kind = .eof) ∨
      ∃ t fault, scan.ending = .fault t fault ∧ t.kind = .error) := by
  cases h with
  | eof htrace hend hkind => exact ⟨htrace.kind_ne_eof, .inl ⟨_, rfl, hkind⟩⟩
  | fault htrace hend =>
    cases stuck_of_scan hend with
    | intro _ hkind => exact ⟨htrace.kind_ne_eof, .inr ⟨_, _, rfl, hkind⟩⟩

/-- Without a fault a scan comes to the end of the source. -/
theorem of_eof (h : l.Ends scan) (heof : scan.ending = .eof t) :
    ∃ m n, l.Trace scan.tokens m ∧ m.scan = .ok (t, n) ∧ t.kind = .eof := by
  cases h with
  | eof htrace hend hkind =>
    cases heof
    exact ⟨_, _, htrace, hend, hkind⟩
  | fault => cases heof

theorem of_fault {fault : Fault} (h : l.Ends scan) (hfault : scan.ending = .fault t fault) :
    ∃ m n, l.Trace scan.tokens m ∧ m.scan = .error ((t, fault), n) := by
  cases h with
  | eof => cases hfault
  | fault htrace hend =>
    cases hfault
    exact ⟨_, _, htrace, hend⟩

end Ends
end Lexer

theorem Lexer.work_start (file source : String) :
    (start file source).work = 2 * (start file source).cursor.rest.length + 1 := rfl

/-- A scan goes through its tokens to its end. -/
theorem Scan.ends_of (file source : String) :
    (Lexer.start file source).Ends (Scan.of file source) :=
  Lexer.ends_run (by rw [Lexer.work_start]; omega) rfl

variable {file source : String}

/-- The scan of a source starts with the tokens on the way, and it does not stop there. -/
theorem Scan.of_trace {ts : List Token} {m : Lexer} (htrace : (Lexer.start file source).Trace ts m)
    :
    ∃ budget, Scan.of file source =
      ⟨ts ++ (m.run (budget + 1)).tokens, (m.run (budget + 1)).ending⟩ := by
  have hlength := htrace.length_add_work
  rw [Lexer.work_start] at hlength
  obtain ⟨budget, hbudget⟩ : ∃ budget, 2 * (Lexer.start file source).cursor.rest.length + 2 =
      ts.length + (budget + 1) :=
    ⟨2 * (Lexer.start file source).cursor.rest.length + 1 - ts.length, by omega⟩
  exact ⟨budget, by rw [Scan.of, hbudget, htrace.run_eq]⟩

/-- There is only one way to an end. -/
theorem Scan.of_ends {scan : Scan} (h : (Lexer.start file source).Ends scan) :
    Scan.of file source = scan := by
  cases h with
  | @eof ts t m n htrace hend hkind =>
    have hm : m.fault = none := htrace.fault rfl
    obtain ⟨budget, hscan⟩ := Scan.of_trace htrace
    have hlast : m.run (budget + 1) = ⟨[], .eof t⟩ := by
      rw [Lexer.run, Lexer.next_of_scan hm hend]
      dsimp only
      rw [Lexer.fault_of_scan hend, hm]
      dsimp only
      rw [if_pos hkind]
    rw [hscan, hlast, append_nil]
  | @fault ts t fault m n htrace hend =>
    obtain ⟨budget, hscan⟩ := Scan.of_trace htrace
    have hlast : m.run (budget + 1) = ⟨[], .fault t fault⟩ := by
      rw [Lexer.run, Lexer.next, htrace.fault rfl, hend]
    rw [hscan, hlast, append_nil]

end Stencil
