import Stencil.Proofs.Script.Reader

/-!
# Words and numbers read back

What the printer writes for a name or a number is what the reader takes from the front of any text
that does not go on in the same word. Blanks in front change no reading.
-/
namespace Stencil.Script

open List

/-- The shape of a number: a digit, then digits, underscores and dots in front of digits. -/
def isNumeralRest : List Char → Bool
  | [] => true
  | '.' :: c :: s => Text.isDigit c && isNumeralRest s
  | c :: s => (Text.isDigit c || c == '_') && isNumeralRest s

def isNumeral (digits : String) : Bool :=
  match digits.toList with
  | [] => false
  | c :: s => Text.isDigit c && isNumeralRest s

/-- An identifier that a variable, an attribute, a function or a parameter may have. -/
def isFreeName (name : String) : Bool := isName name && !Reader.script.reserved.contains name

namespace Reader

/-- No word and no number goes on here. -/
def clear : List Char → Bool
  | [] => true
  | '.' :: c :: _ => !Text.isDigit c
  | c :: _ => !isNamePart c

@[simp] theorem skip_space (s : List Char) : skip (' ' :: s) = skip s := by simp [skip]

@[simp] theorem skip_newline (s : List Char) : skip ('\n' :: s) = skip s := by simp [skip]

variable {c : Char} {s : List Char} {name digits : String}

theorem skip_cons (hs : c ≠ ' ') (hn : c ≠ '\n') (s : List Char) : skip (c :: s) = c :: s := by
  simp [skip, hs, hn]

@[simp] theorem skip_margin (n : Nat) (s : List Char) : skip (replicate n ' ' ++ s) = skip s := by
  induction n with
  | zero => simp
  | succ n ih => simpa [replicate_succ] using ih

@[simp] theorem skip_skip (s : List Char) : skip (skip s) = skip s := by
  induction s with
  | nil => rfl
  | cons c s ih =>
    by_cases h : c = ' ' ∨ c = '\n'
    · simpa [skip, h] using ih
    · simp [skip, h]

section Blanks

variable {s t : List Char} (h : skip s = skip t)

include h

theorem operand_congr (negation : Bool) : script.operand negation s = script.operand negation t := by
  rw [Grammar.operand, Grammar.operand, h]

theorem expr_congr (least : Nat) : script.expr least s = script.expr least t := by
  rw [Grammar.expr, Grammar.expr, operand_congr h]

theorem items_congr (closing : Char) : script.items closing s = script.items closing t := by
  rw [Grammar.items, Grammar.items, h, expr_congr h]

theorem properties_congr : script.properties s = script.properties t := by
  rw [Grammar.properties, Grammar.properties, key, key, h]

theorem statements_congr : script.statements s = script.statements t := by
  rw [Grammar.statements, Grammar.statements, h]

end Blanks

theorem isNameStart_ne (h : isNameStart c) : c ≠ ' ' ∧ c ≠ '\n' ∧ Text.isDigit c = false := by
  refine ⟨?_, ?_, ?_⟩
  · rintro rfl; exact absurd h (by decide)
  · rintro rfl; exact absurd h (by decide)
  · rw [Bool.eq_false_iff]
    intro hd
    simp only [isNameStart, Text.isDigit, Bool.or_eq_true, Bool.and_eq_true, decide_eq_true_eq,
      beq_iff_eq, Char.le_def, UInt32.le_iff_toNat_le] at h hd
    rcases h with ((h | h) | rfl) | rfl <;> simp_all <;> omega

/-- A text that is clear cannot lengthen a word. -/
theorem not_isNamePart_of_clear (h : clear (c :: s)) : isNamePart c = false := by
  by_cases hc : c = '.'
  · subst c; decide
  · simpa [clear, hc] using h

theorem word_append {w : List Char} (hw : w.all isNamePart) (hs : clear s) :
    word (w ++ s) = (String.ofList w, s) := by
  have hall : ∀ c ∈ w, isNamePart c := all_eq_true.mp hw
  have stop : s.takeWhile isNamePart = [] ∧ s.dropWhile isNamePart = s := by
    cases s with
    | nil => exact ⟨rfl, rfl⟩
    | cons c s => simp [not_isNamePart_of_clear hs]
  simp [word, takeWhile_append_of_pos hall, dropWhile_append_of_pos hall, stop]

theorem isName_cases (h : isName name) :
    ∃ c s, name.toList = c :: s ∧ isNameStart c ∧ (c :: s).all isNamePart := by
  unfold isName at h
  split at h
  · cases h
  · next c s hc =>
    simp only [Bool.and_eq_true] at h
    refine ⟨c, s, hc, h.1, ?_⟩
    simp only [all_cons, Bool.and_eq_true, isNamePart, h.1, Bool.true_or, true_and]
    exact h.2

theorem word_name (h : isName name) (hs : clear s) : word (name.toList ++ s) = (name, s) := by
  obtain ⟨c, t, hc, _, hall⟩ := isName_cases h
  rw [hc, word_append hall hs, ← hc, String.ofList_toList]

theorem identifier_name (h : isName name) (hs : clear s) :
    identifier (name.toList ++ s) = some (name, s) := by
  obtain ⟨c, t, hc, hstart, _⟩ := isName_cases h
  have hw := word_name h hs
  rw [hc] at hw ⊢
  simpa [identifier, hstart] using hw

theorem skip_name (h : isName name) (s : List Char) :
    skip (name.toList ++ s) = name.toList ++ s := by
  obtain ⟨c, t, hc, hstart, _⟩ := isName_cases h
  obtain ⟨hsp, hnl, _⟩ := isNameStart_ne hstart
  rw [hc, cons_append, skip_cons hsp hnl]

theorem isFreeName_iff : isFreeName name ↔ isName name ∧ name ∉ script.reserved := by
  simp [isFreeName]

theorem number_rest {digits : List Char} (h : isNumeralRest digits) (hs : clear s) :
    number (digits ++ s) = (digits, s) := by
  fun_induction isNumeralRest digits with
  | case1 =>
    cases s with
    | nil => rfl
    | cons c s =>
      have hpart := not_isNamePart_of_clear hs
      have hdigit : Text.isDigit c = false := by simp_all [isNamePart]
      have hscore : c ≠ '_' := by rintro rfl; exact absurd hpart (by decide)
      by_cases hdot : c = '.'
      · subst c
        cases s with
        | nil => simp [number, hdigit]
        | cons d s => simp_all [number, clear]
      · simp [number, hdigit, hscore, hdot]
  | case2 c t ih =>
    simp only [Bool.and_eq_true] at h
    simp [number, h.1, ih h.2]
  | case3 c t _ ih =>
    simp only [Bool.and_eq_true, Bool.or_eq_true] at h
    have hc : (Text.isDigit c || c == '_') := by simpa using h.1
    simp [number, hc, ih h.2]

theorem number_numeral (h : isNumeral digits) (hs : clear s) :
    number (digits.toList ++ s) = (digits.toList, s) := by
  unfold isNumeral at h
  split at h
  · cases h
  · next c t hc =>
    simp only [Bool.and_eq_true] at h
    simp [hc, number, h.1, number_rest h.2 hs]

theorem isNumeral_cases (h : isNumeral digits) :
    ∃ c s, digits.toList = c :: s ∧ Text.isDigit c := by
  unfold isNumeral at h
  split at h
  · cases h
  · next c t hc => exact ⟨c, t, hc, (Bool.and_eq_true _ _ ▸ h).1⟩

/-- Parameters are read back in order. -/
theorem names_intercalate (params : List String) (h : ∀ p ∈ params, isFreeName p) (s : List Char) :
    script.names ((", ".intercalate params).toList ++ ')' :: s) = some (params, s) := by
  induction params with
  | nil =>
    rw [String.intercalate_nil, Grammar.names]
    rfl
  | cons p ps ih =>
    obtain ⟨hp, hfree⟩ := isFreeName_iff.mp (h p mem_cons_self)
    have hps := fun q hq => h q (mem_cons_of_mem p hq)
    obtain ⟨c, t, hc, hstart, _⟩ := isName_cases hp
    have hclose : c ≠ ')' := by rintro rfl; exact absurd hstart (by decide)
    cases ps with
    | nil =>
      have hid := identifier_name hp (s := ')' :: s) rfl
      have hskip := skip_name hp (')' :: s)
      rw [String.intercalate_singleton, Grammar.names, hskip]
      rw [hc, cons_append] at hid ⊢
      split
      · next heq => exact absurd (cons.inj heq).1 hclose
      · simp [hid, hfree, skip]
    | cons q qs =>
      have hsplit : (", ".intercalate (p :: q :: qs)).toList ++ ')' :: s =
          p.toList ++ ',' :: ' ' :: ((", ".intercalate (q :: qs)).toList ++ ')' :: s) := by
        rw [String.intercalate_cons_cons, String.toList_append, String.toList_append,
          append_assoc, append_assoc]
        rfl
      have hrest := ih hps
      generalize (", ".intercalate (q :: qs)).toList ++ ')' :: s = rest at hsplit hrest
      have hspace : script.names (' ' :: rest) = some (q :: qs, s) := by
        rw [Grammar.names, skip_space, ← Grammar.names, hrest]
      have hid := identifier_name hp (s := ',' :: ' ' :: rest) rfl
      have hskip := skip_name hp (',' :: ' ' :: rest)
      rw [hsplit, Grammar.names, hskip]
      rw [hc, cons_append] at hid ⊢
      split
      · next heq => exact absurd (cons.inj heq).1 hclose
      · simp [hid, hfree, skip, hspace]

end Reader
end Stencil.Script
