import Stencil.Proofs.Token.Indentation

/-!
# Scanning comes to rest

Every token but the last takes a cluster, opens or closes a level or ends the last line, so the
clusters bound their number. The last token is the end of the source or the token of a fault. The
scanner stays as it is then, and gives that token again whenever it is asked.
-/
namespace Stencil

open Text (Cluster)

namespace Lexer

variable {l m : Lexer} {t : Token}

theorem Step.kind_ne_error (h : l.Step t m) : t.kind ≠ .error := by
  cases h with
  | content _ hcut => exact hcut.kind_ne.2.2.2
  | pending _ hmark => rw [hmark.1]; exact TokenKind.noConfusion
  | indent | dedent | lastLine | lastLevel | eof => exact TokenKind.noConfusion

theorem after_of_next (h : l.next = (t, l)) (n : Nat) : l.after n = l := by
  induction n with
  | zero => rfl
  | succ n ih => rw [after, h, ih]

/-- At its end a source is ended once more, at the same place. -/
theorem Step.next_of_eof (h : l.Step t m) (hl : m.fault = none) (hkind : t.kind = .eof) :
    next { m with last := .eof } = (t, { m with last := .eof }) := by
  obtain ⟨ht, -, hrest, hindents, hlength⟩ := h.of_eof hkind
  have hscan : scan { m with last := .eof } = .ok (t, { m with last := .eof }) := by
    rw [scan_of_empty (l := { m with last := .eof }) hrest, finish_of_isLayout fun _ => rfl,
      if_neg (by rw [hindents]; omega), ht]
    rfl
  rw [next_of_scan (l := { m with last := .eof }) hl hscan, hkind]

end Lexer

namespace Scan

variable {file source : String}

/-- After the last token of a source the scanner has met its fault, if there is one, and changes no
more. -/
theorem exists_rest (file source : String) :
    ∃ l, (Lexer.start file source).after ((Scan.of file source).tokens.length + 1) = l ∧
      l.next = ((Scan.of file source).ending.token, l) ∧
      l.faults.size = if (Scan.of file source).ending.token.kind = .error then 1 else 0 := by
  generalize hscan : Scan.of file source = scan
  have hends := Scan.ends_of file source
  rw [hscan] at hends
  cases hends with
  | @eof ts t m n htrace hend hkind =>
    have hm : m.fault = none := htrace.fault rfl
    have hn : n.fault = none := (Lexer.fault_of_scan hend).trans hm
    refine ⟨{ n with last := .eof }, ?_, (Lexer.step_of_scan hend).next_of_eof hn hkind, ?_⟩
    · rw [Lexer.after_add, htrace.after_eq, Lexer.after, Lexer.next_of_scan hm hend, hkind]
      rfl
    · rw [if_neg (by rw [Ending.token, hkind]; exact TokenKind.noConfusion), Lexer.faults, hn]
      rfl
  | @fault ts t fault m n htrace hend =>
    obtain ⟨-, hkind⟩ := Lexer.stuck_of_scan hend
    refine ⟨{ n with fault := some (t, fault) }, ?_, rfl, (if_pos hkind).symm⟩
    rw [Lexer.after_add, htrace.after_eq, Lexer.after, Lexer.next, htrace.fault rfl, hend]
    rfl

theorem length_all_le (file source : String) :
    (Scan.of file source).all.length ≤ 2 * (Cluster.segment source).length + 2 := by
  obtain ⟨m, htrace, -⟩ := exists_trace file source
  have hwork := htrace.length_add_work
  rw [Lexer.work_start] at hwork
  change _ ≤ 2 * (Cluster.segment source).length + 1 at hwork
  rw [Scan.all, List.length_append, List.length_singleton]
  omega

theorem ending_only_last (file source : String) :
    (∀ t ∈ (Scan.of file source).tokens, t.kind ≠ .eof ∧ t.kind ≠ .error) ∧
      ((Scan.of file source).ending.token.kind = .eof ∨
        (Scan.of file source).ending.token.kind = .error) := by
  obtain ⟨htokens, hending⟩ := (Scan.ends_of file source).kinds
  obtain ⟨m, htrace, -⟩ := exists_trace file source
  have herror := htrace.all_tokens (P := fun t => t.kind ≠ .error) (I := fun _ => True)
    (fun l t m _ hscan => ⟨(Lexer.step_of_scan hscan).kind_ne_error, trivial⟩) trivial
  refine ⟨fun t ht => ⟨htokens t ht, herror.1 t ht⟩, ?_⟩
  rcases hending with ⟨t, hend, hkind⟩ | ⟨t, fault, hend, hkind⟩
  · exact .inl (by rw [hend]; exact hkind)
  · exact .inr (by rw [hend]; exact hkind)

/-- The scanner goes through at most twice as many tokens as the source has clusters, and two more.
Only the last of them is an end or a fault, and it comes again for ever, while the scanner with its
faults stays as it is. -/
theorem comes_to_rest (file source : String) :
    let scan := Scan.of file source
    let l := Lexer.start file source
    scan.all.length ≤ 2 * (Cluster.segment source).length + 2 ∧
      (∀ n t, scan.all[n]? = some t → (l.after n).next.1 = t) ∧
      (∀ t ∈ scan.tokens, t.kind ≠ .eof ∧ t.kind ≠ .error) ∧
      (scan.ending.token.kind = .eof ∨ scan.ending.token.kind = .error) ∧
      ∀ n, scan.all.length ≤ n →
        (l.after n).next.1 = scan.ending.token ∧ l.after n = l.after scan.all.length ∧
        (l.after n).faults.size = if scan.ending.token.kind = .error then 1 else 0 := by
  obtain ⟨htokens, hending⟩ := ending_only_last file source
  refine ⟨length_all_le file source, fun n t ht => next_of_all ht, htokens, hending, ?_⟩
  intro n hn
  obtain ⟨l, hl, hnext, hfaults⟩ := exists_rest file source
  have hlength : (Scan.of file source).all.length = (Scan.of file source).tokens.length + 1 := by
    rw [Scan.all, List.length_append, List.length_singleton]
  have hafter : (Lexer.start file source).after n = l := by
    obtain ⟨more, rfl⟩ := Nat.exists_eq_add_of_le hn
    rw [Lexer.after_add, hlength, hl, Lexer.after_of_next hnext]
  rw [hafter, hlength, hl]
  exact ⟨by rw [hnext], rfl, hfaults⟩

end Scan
end Stencil
