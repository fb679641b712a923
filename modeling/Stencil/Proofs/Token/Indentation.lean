import Stencil.Proofs.Token.Trace

/-!
# Levels of indentation

The levels that are open lie strictly above each other and the lowest is always the margin zero.
Along a scan without a fault, as many levels are open as were opened and not yet closed, and at the
end of the source all of them are closed.
-/
namespace Stencil

/-- Levels with the innermost first, down to the margin zero. -/
structure IsStack (levels : List Nat) : Prop where
  decreasing : levels.Pairwise (· > ·)
  bottom : levels.getLast? = some 0

namespace IsStack

variable {levels : List Nat} {width : Nat}

theorem ne_nil (h : IsStack levels) : levels ≠ [] := by
  rintro rfl
  cases h.bottom

theorem push (h : IsStack levels) (hwidth : levels.headD 0 < width) : IsStack (width :: levels) := by
  obtain ⟨level, outer, rfl⟩ := List.exists_cons_of_ne_nil h.ne_nil
  have habove : ∀ other ∈ level :: outer, width > other := by
    intro other hother
    rcases List.mem_cons.mp hother with rfl | hlower
    · exact hwidth
    · exact Nat.lt_trans ((List.pairwise_cons.mp h.decreasing).1 other hlower) hwidth
  constructor
  · exact List.pairwise_cons.mpr ⟨habove, h.decreasing⟩
  · rw [List.getLast?_cons_cons]
    exact h.bottom

/-- Below a level that is not zero there is another. -/
theorem pop (h : IsStack levels) (hpos : 0 < levels.headD 0) : IsStack levels.tail := by
  rcases levels with _ | ⟨level, _ | ⟨outer, levels⟩⟩
  · cases hpos
  · cases h.bottom
    cases hpos
  · constructor
    · exact (List.pairwise_cons.mp h.decreasing).2
    · exact h.bottom

end IsStack

namespace Lexer

variable {l m : Lexer} {t : Token} {ts : List Token}

theorem Step.isStack (h : l.Step t m) (hl : IsStack l.indents) : IsStack m.indents := by
  cases h with
  | content hpass hcut hoffset hindents => exact hindents ▸ hl
  | indent width hpass hne hwidth hindents => exact hindents ▸ hl.push hwidth
  | dedent width hpass hwidth hindents => exact hindents ▸ hl.pop (by omega)
  | pending hpass hmark hoffset hwidth hindents => exact hindents ▸ hl.pop (by omega)
  | lastLine hpass hend hlast hindents => exact hindents ▸ hl
  | lastLevel hpass hend hindents hne =>
    obtain ⟨outer, levels, hlevels⟩ := List.exists_cons_of_ne_nil hne
    rw [hindents, hlevels] at hl
    rw [hlevels]
    have hlower := (List.pairwise_cons.mp hl.decreasing).1 outer List.mem_cons_self
    exact hl.pop (Nat.lt_of_le_of_lt (Nat.zero_le outer) hlower)
  | eof hpass hend hindents hlength => exact hindents ▸ hl

theorem Stuck.isStack (h : l.Stuck t m) (hl : IsStack l.indents) : IsStack m.indents := by
  cases h with
  | intro hpass hkind hliteral hoffset hindents =>
    rcases hindents with hsame | ⟨hpos, hpop⟩
    · exact hsame ▸ hl
    · exact hpop ▸ hl.pop hpos

theorem isStack_next (hl : IsStack l.indents) : IsStack l.next.2.indents := by
  rcases next_cases l with ⟨_, _, h⟩ | ⟨t, m, _, hscan, h⟩ | ⟨t, fault, m, _, hscan, h⟩
  · rwa [h]
  · rw [h]
    exact (step_of_scan hscan).isStack hl
  · rw [h]
    exact (stuck_of_scan hscan).isStack hl

theorem isStack_after (n : Nat) (hl : IsStack l.indents) : IsStack (l.after n).indents := by
  induction n generalizing l with
  | zero => exact hl
  | succ n ih => exact ih (isStack_next hl)

theorem isStack_start (file source : String) : IsStack (start file source).indents :=
  ⟨List.pairwise_singleton _ _, rfl⟩

theorem Trace.isStack (h : l.Trace ts m) (hl : IsStack l.indents) : IsStack m.indents := by
  rw [← h.after_eq]
  exact isStack_after _ hl

/-! ## Balance -/

/-- How many tokens are of a kind. -/
def count (kind : TokenKind) (ts : List Token) : Nat := ts.countP (·.kind = kind)

variable (kind : TokenKind)

@[simp] theorem count_nil : count kind [] = 0 := rfl

theorem count_cons (t : Token) (ts : List Token) :
    count kind (t :: ts) = count kind ts + if t.kind = kind then 1 else 0 := by
  rw [count, List.countP_cons]
  simp [count]

theorem count_append (ts us : List Token) :
    count kind (ts ++ us) = count kind ts + count kind us :=
  List.countP_append

/-- A level is open from its token to the token that closes it. -/
theorem Step.length_indents (h : l.Step t m) :
    m.indents.length + count .dedent [t] = l.indents.length + count .indent [t] := by
  simp only [count_cons, count_nil, Nat.zero_add]
  cases h with
  | content hpass hcut hoffset hindents =>
    rw [hindents, if_neg hcut.kind_ne.1, if_neg hcut.kind_ne.2.1]
  | indent width hpass hne hwidth hindents => simp [token, hindents]
  | dedent width hpass hwidth hindents =>
    have := length_tail hwidth
    simp [token, hindents]
    omega
  | pending hpass hmark hoffset hwidth hindents =>
    have := length_tail hwidth
    simp [hmark.1, hindents]
    omega
  | lastLine hpass hend hlast hindents => simp [token, hindents]
  | lastLevel hpass hend hindents hne => simp [token, hindents]
  | eof hpass hend hindents hlength => simp [token, hindents]

theorem Trace.length_indents (h : l.Trace ts m) :
    m.indents.length + count .dedent ts = l.indents.length + count .indent ts := by
  induction h with
  | refl => rfl
  | step hl hscan hkind hlater ih =>
    have hstep := (step_of_scan hscan).length_indents
    simp only [count_cons, count_nil] at hstep ih ⊢
    omega

/-- As many levels are open as the tokens have opened and not closed. -/
theorem Trace.depth (h : l.Trace ts m) (hl : l.indents = [0]) :
    count .dedent ts ≤ count .indent ts ∧
      m.indents.length = count .indent ts - count .dedent ts + 1 := by
  have hlength := h.length_indents
  have hstack : IsStack m.indents := h.isStack (by rw [hl]; exact isStack_start "" "")
  have hpos := List.length_pos_iff.mpr hstack.ne_nil
  rw [hl, List.length_singleton] at hlength
  omega

end Lexer

/-- All tokens of a scan, the last one included. -/
def Scan.all (scan : Scan) : List Token := scan.tokens ++ [scan.ending.token]

namespace Scan

variable {file source : String} {eof : Token} {n : Nat}

theorem all_eq (h : (Scan.of file source).ending = .eof eof) :
    (Scan.of file source).all = (Scan.of file source).tokens ++ [eof] := by
  rw [Scan.all, h]
  rfl

/-- However a scan ends, the scanner goes through its tokens and then gives the last one. -/
theorem exists_trace (file source : String) :
    ∃ m, (Lexer.start file source).Trace (Scan.of file source).tokens m ∧
      m.next.1 = (Scan.of file source).ending.token := by
  cases hend : (Scan.of file source).ending with
  | eof t =>
    obtain ⟨m, n, htrace, hscan, -⟩ := (Scan.ends_of _ _).of_eof hend
    refine ⟨m, htrace, ?_⟩
    rw [Lexer.next_of_scan (htrace.fault rfl) hscan]
    rfl
  | fault t fault =>
    obtain ⟨m, n, htrace, hscan⟩ := (Scan.ends_of _ _).of_fault hend
    refine ⟨m, htrace, ?_⟩
    rw [Lexer.next, htrace.fault rfl, hscan]
    rfl

/-- The tokens of a scan are those that the scanner gives one after another. -/
theorem next_of_all {t : Token} (ht : (Scan.of file source).all[n]? = some t) :
    ((Lexer.start file source).after n).next.1 = t := by
  obtain ⟨m, htrace, hlast⟩ := exists_trace file source
  rw [Scan.all] at ht
  by_cases hn : n < (Scan.of file source).tokens.length
  · rw [List.getElem?_append_left hn, List.getElem?_eq_getElem hn] at ht
    have hlater := (htrace.between (Nat.le_of_lt hn)).2
    rw [List.drop_eq_getElem_cons hn, Option.some.inj ht] at hlater
    exact hlater.next_eq
  · obtain ⟨hlength, -⟩ := List.getElem?_eq_some_iff.mp ht
    obtain rfl : n = (Scan.of file source).tokens.length := by
      rw [List.length_append, List.length_singleton] at hlength
      omega
    rw [htrace.after_eq, hlast]
    simpa using ht

/-- As many levels are open as the tokens so far have opened and not closed. -/
theorem depth_after (h : (Scan.of file source).ending = .eof eof)
    (hn : n ≤ (Scan.of file source).all.length) :
    Lexer.count .dedent ((Scan.of file source).all.take n) ≤
        Lexer.count .indent ((Scan.of file source).all.take n) ∧
      ((Lexer.start file source).after n).indents.length =
        Lexer.count .indent ((Scan.of file source).all.take n) -
          Lexer.count .dedent ((Scan.of file source).all.take n) + 1 := by
  obtain ⟨m, last, htrace, hend, hkind⟩ := (Scan.ends_of _ _).of_eof h
  rw [all_eq h] at hn ⊢
  by_cases hlast : n ≤ (Scan.of file source).tokens.length
  · rw [List.take_append_of_le_length hlast]
    exact (htrace.between hlast).1.depth rfl
  · -- The end of the source opens and closes nothing.
    obtain rfl : n = (Scan.of file source).tokens.length + 1 := by
      rw [List.length_append, List.length_singleton] at hn
      omega
    have hsame := ((Lexer.step_of_scan hend).of_eof hkind).2.2.2.1
    have hcount : ∀ kind, kind ≠ .eof → Lexer.count kind ((Scan.of file source).tokens ++ [eof]) =
        Lexer.count kind (Scan.of file source).tokens := by
      intro kind hne
      rw [Lexer.count_append, Lexer.count_cons, hkind, if_neg hne.symm]
      rfl
    rw [List.take_of_length_le (by simp), hcount _ (by simp), hcount _ (by simp), Lexer.after_add,
      htrace.after_eq]
    simp only [Lexer.after, Lexer.next_of_scan (htrace.fault rfl) hend, hsame]
    exact htrace.depth rfl

end Scan

open Lexer (count)

/-- The scanner's levels are a stack after any number of tokens. In a scan without a fault no more
levels are closed than were opened, one more than the difference are on the stack, all of them are
closed at the end, and just the last token ends the source. -/
theorem Scan.indentation (file source : String) :
    (∀ n, IsStack ((Lexer.start file source).after n).indents) ∧
      ∀ eof, (Scan.of file source).ending = .eof eof →
        (∀ n ≤ (Scan.of file source).all.length,
          count .dedent ((Scan.of file source).all.take n) ≤
              count .indent ((Scan.of file source).all.take n) ∧
            ((Lexer.start file source).after n).indents.length =
              count .indent ((Scan.of file source).all.take n) -
                count .dedent ((Scan.of file source).all.take n) + 1) ∧
          count .indent (Scan.of file source).all = count .dedent (Scan.of file source).all ∧
          (∀ n t, (Scan.of file source).all[n]? = some t →
            ((Lexer.start file source).after n).next.1 = t) ∧
          eof.kind = .eof ∧ ∀ t ∈ (Scan.of file source).tokens, t.kind ≠ .eof := by
  refine ⟨fun n => Lexer.isStack_after n (Lexer.isStack_start file source), fun eof heof => ?_⟩
  obtain ⟨m, last, htrace, hend, hkind⟩ := (Scan.ends_of _ _).of_eof heof
  refine ⟨fun n => Scan.depth_after heof, ?_, fun n t => Scan.next_of_all, hkind,
    htrace.kind_ne_eof⟩
  -- Only the lowest level is left at the end.
  obtain ⟨-, -, -, hsame, hone⟩ := (Lexer.step_of_scan hend).of_eof hkind
  obtain ⟨hle, hdepth⟩ := Scan.depth_after heof (Nat.le_refl _)
  have hlength : (Scan.of file source).all.length = (Scan.of file source).tokens.length + 1 := by
    rw [Scan.all_eq heof, List.length_append, List.length_singleton]
  rw [List.take_length, hlength, Lexer.after_add, htrace.after_eq] at hdepth
  simp only [Lexer.after, Lexer.next_of_scan (htrace.fault rfl) hend, hsame] at hdepth
  rw [List.take_length] at hle
  omega

/-- The last line closes two levels at once, a token for each: three levels are on the stack before the
first of them and two after it. -/
theorem Scan.indentation_nested :
    (Scan.of "" "a\n  b\n    c\nd").ending = .eof ⟨.eof, "", 4, 2, 13⟩ ∧
      (Scan.of "" "a\n  b\n    c\nd").all.map (·.kind) = [.identifier, .newline, .indent, .identifier,
        .newline, .indent, .identifier, .newline, .dedent, .dedent, .identifier, .newline, .eof] ∧
      count .indent (Scan.of "" "a\n  b\n    c\nd").all =
        count .dedent (Scan.of "" "a\n  b\n    c\nd").all ∧
      ((Lexer.start "" "a\n  b\n    c\nd").after 9).indents.length =
        count .indent ((Scan.of "" "a\n  b\n    c\nd").all.take 9) -
          count .dedent ((Scan.of "" "a\n  b\n    c\nd").all.take 9) + 1 := by
  have hend : (Scan.of "" "a\n  b\n    c\nd").ending = .eof ⟨.eof, "", 4, 2, 13⟩ := by
    decide +kernel
  obtain ⟨hdepth, hbalance, -⟩ := (Scan.indentation "" "a\n  b\n    c\nd").2 _ hend
  exact ⟨hend, by decide +kernel, hbalance, (hdepth 9 (by decide +kernel)).2⟩

end Stencil
