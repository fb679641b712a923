import Stencil.Proofs.Markup.Filled

/-!
# Every source has a result

A source is compiled into an output or into a report that says what is wrong with it. On the way no
step meets a case that it cannot handle: the stack of levels is never empty, literals are cut from
within the source, a string of a source has both of its quotes, and no place of the code is left
empty.
-/
namespace Stencil

open Text (Cluster)

/-! ## Strings of a source -/

/-- A string has room for both of its quotes. -/
def Token.IsQuoted (t : Token) : Prop := t.kind = .string → 2 ≤ t.literal.utf8ByteSize

namespace Lexer

variable {l m : Lexer} {t : Token}

theorem Step.isQuoted (h : l.Step t m) : t.IsQuoted := by
  intro hkind
  cases h with
  | content _ hcut =>
    generalize t.literal = literal at hcut
    rw [hkind] at hcut
    cases hcut with
    | whole _ _ hstring =>
      rw [Cluster.utf8ByteSize_text]
      exact Nat.le_trans (hstring rfl) (Cluster.length_le_bytes _)
  | pending _ hmark =>
    rw [hmark.1] at hkind
    cases hkind
  | indent | dedent | lastLine | lastLevel | eof => cases hkind

end Lexer

/-- The strings of a scan are quoted, however it ends. -/
theorem Scan.isQuoted (file source : String) :
    (∀ t ∈ (Scan.of file source).tokens, t.IsQuoted) ∧
      (Scan.of file source).ending.token.IsQuoted := by
  refine Lexer.Ends.all_tokens (I := fun _ => True) (fun t herror hkind => ?_)
    (fun l t m _ hscan => ⟨(Lexer.step_of_scan hscan).isQuoted, trivial⟩) (Scan.ends_of file source)
    trivial
  rw [herror] at hkind
  cases hkind

/-! ## Defaults of style blocks -/

/-- The default has room for both of its quotes. -/
def Param.IsQuoted (p : Param) : Prop := ∀ literal ∈ p.fallback, 2 ≤ literal.utf8ByteSize

theorem Param.IsQuoted.not_isBroken {p : Param} (h : p.IsQuoted) (given : Values) :
    p.isBroken given = false := by
  unfold isBroken
  cases hfallback : p.fallback with
  | none => simp
  | some literal =>
    have := h literal hfallback
    have hne : literal.utf8ByteSize ≠ 1 := by omega
    simp [hne]

variable {t : Template}

/-- The defaults of the style blocks of a template that was read have room for both quotes. -/
theorem Template.isQuoted_of_read {file source : String} (h : Template.read file source = .ok t) :
    ∀ b ∈ t.styleBlocks, ∀ p ∈ b.params, p.IsQuoted :=
  Template.of_read (Template.parser_fallbacks (2 ≤ ·.utf8ByteSize)) (Scan.isQuoted file source) h

theorem Template.styleText?_eq (h : ∀ b ∈ t.styleBlocks, ∀ p ∈ b.params, p.IsQuoted)
    (given : Values) : t.styleText? given = some (t.styleText given) := by
  have hwhole : t.styleBlocks.any (·.params.any (Param.isBroken given)) = false := by
    refine List.any_eq_false.mpr fun b hb => ?_
    rw [Bool.not_eq_true]
    refine List.any_eq_false.mpr fun p hp => ?_
    rw [(h b hb p hp).not_isBroken given]
    exact Bool.false_ne_true
  rw [styleText?, if_neg (Bool.eq_false_iff.mp hwhole)]

/-- Scoping leaves the parameters as they are. -/
theorem Template.isQuoted_scopedTo (h : ∀ b ∈ t.styleBlocks, ∀ p ∈ b.params, p.IsQuoted)
    (name : String) : ∀ b ∈ (t.scopedTo name).styleBlocks, ∀ p ∈ b.params, p.IsQuoted := by
  intro b hb
  obtain ⟨marked, hmarked, hstyle⟩ := List.mem_filterMap.mp hb
  obtain ⟨block, hmem, rfl⟩ := List.mem_map.mp hmarked
  cases block <;> cases hstyle
  have hblock := h _ (List.mem_filterMap.mpr ⟨_, hmem, rfl⟩)
  exact hblock

/-- Every source is compiled into an output or a report that is not empty. Whatever the text, a
scanner always has a level on its stack and cuts the literal of its next token from within the text;
and a template that was read has a style sheet, whatever values are given, and code without a gap. -/
theorem compile_total (file source : String) (o : Options) :
    (∀ name text n, IsStack ((Lexer.start name text).after n).indents ∧
        ((Lexer.start name text).after n).next.1.IsSlice text) ∧
      (∀ word, Text.split '.' word ≠ []) ∧
      ((∃ fault, compile file source o = .error fault ∧ fault.report.isFaulty = true) ∨
        ∃ t css, Template.read file source = .ok t ∧
          (if (o.blockNameFor file).isEmpty then t else t.scopedTo (o.blockNameFor file)).styleText?
            o.cssVars = some css ∧
          (t.codeFor o file).gap? = none ∧
          compile file source o = .ok ⟨css, Script.Code.text o.indent (t.codeFor o file), t⟩) := by
  refine ⟨fun name text n => ?_, Text.split_ne_nil '.', ?_⟩
  · have hsited := (Lexer.sited_start name text).after n
    exact ⟨Lexer.isStack_after n (Lexer.isStack_start name text), hsited.next.1⟩
  cases hread : Template.read file source with
  | error fault => exact .inl ⟨fault, by rw [compile, hread]; rfl, rfl⟩
  | ok t =>
    have hquoted := Template.isQuoted_of_read hread
    refine .inr ⟨t, t.stylesFor o file, rfl, ?_, Template.gap?_codeFor o file t, ?_⟩
    · unfold Template.stylesFor
      dsimp only
      split
      · exact Template.styleText?_eq hquoted _
      · exact Template.styleText?_eq (Template.isQuoted_scopedTo hquoted _) _
    · rw [compile, hread]
      rfl

end Stencil
