import Mathlib.Data.List.Basic
import Stencil.Text.Basic

/-!
# Cutting texts and putting them together

What a text is cut into at a separator, if it was put together with that separator or has none in
it, and the words of a text that stand between spaces.
-/
namespace Stencil.Text

open List

variable (separator : Char)

theorem splitChars_eq_splitOn (cs : List Char) :
    splitChars separator cs = cs.splitOn separator := by
  induction cs with
  | nil => rfl
  | cons c cs ih =>
    rw [splitChars, ih, splitOn_cons_eq_if_modifyHead]
    cases hparts : splitOn separator cs with
    | nil => exact absurd hparts (splitOn_ne_nil _ _)
    | cons part parts => simp only [beq_iff_eq, modifyHead_cons]

theorem split_ne_nil (text : String) : split separator text ≠ [] := by
  rw [split, splitChars_eq_splitOn]
  exact fun h => splitOn_ne_nil _ _ (map_eq_nil_iff.mp h)

theorem split_append (s t : String) :
    split separator (s ++ String.singleton separator ++ t) =
      split separator s ++ split separator t := by
  simp only [split, String.toList_append, String.toList_singleton, append_assoc,
    singleton_append, splitChars_eq_splitOn, splitOn_append_cons_self, map_append]

variable {separator c : Char} {texts : List String} {text : String}

theorem split_of_not_mem {s : String} (h : separator ∉ s.toList) : split separator s = [s] := by
  rw [split, splitChars_eq_splitOn, splitOn_eq_singleton h, map_singleton, String.ofList_toList]

theorem split_intercalate (hne : texts ≠ []) (h : ∀ t ∈ texts, separator ∉ t.toList) :
    split separator ((String.singleton separator).intercalate texts) = texts := by
  induction texts with
  | nil => exact absurd rfl hne
  | cons t texts ih =>
    obtain ⟨ht, htexts⟩ := forall_mem_cons.mp h
    cases texts with
    | nil => rw [String.intercalate_singleton, split_of_not_mem ht]
    | cons u texts =>
      rw [String.intercalate_cons_cons, split_append, split_of_not_mem ht,
        ih (cons_ne_nil u texts) htexts, singleton_append]

/-- The first part starts as the text does, unless the text starts with a separator. -/
theorem splitChars_cons (h : c ≠ separator) (cs : List Char) :
    ∃ part parts, splitChars separator cs = part :: parts ∧
      splitChars separator (c :: cs) = (c :: part) :: parts := by
  cases hparts : splitChars separator cs with
  | nil =>
    rw [splitChars_eq_splitOn] at hparts
    exact absurd hparts (splitOn_ne_nil _ _)
  | cons part parts =>
    refine ⟨part, parts, rfl, ?_⟩
    rw [splitChars, hparts]
    exact if_neg h

/-- The parts have no separator in them and no character that is not in the text. -/
theorem mem_of_mem_splitChars {cs part : List Char} (hpart : part ∈ splitChars separator cs)
    (hc : c ∈ part) : c ≠ separator ∧ c ∈ cs := by
  induction cs generalizing part with
  | nil =>
    rw [mem_singleton.mp hpart] at hc
    cases hc
  | cons d cs ih =>
    by_cases hd : d = separator
    · rw [splitChars_eq_splitOn, splitOn_cons_eq_if_modifyHead, if_pos (by simpa using hd),
        ← splitChars_eq_splitOn] at hpart
      rcases mem_cons.mp hpart with rfl | hlater
      · cases hc
      · exact (ih hlater hc).imp_right (mem_cons_of_mem d)
    · obtain ⟨first, parts, hsplit, hwhole⟩ := splitChars_cons hd cs
      rw [hwhole] at hpart
      rw [hsplit] at ih
      rcases mem_cons.mp hpart with rfl | hlater
      · rcases mem_cons.mp hc with rfl | hfirst
        · exact ⟨hd, mem_cons_self⟩
        · exact (ih mem_cons_self hfirst).imp_right (mem_cons_of_mem d)
      · exact (ih (mem_cons_of_mem first hlater) hc).imp_right (mem_cons_of_mem d)

/-! ## Words -/

/-- The words of a text, which have spaces between them. -/
def words (text : String) : List String := (split ' ' text).filter (· ≠ "")

/-- A text that is one word: it is not empty and has no space in it. -/
def isOneWord (text : String) : Bool := text ≠ "" && !text.toList.contains ' '

theorem isOneWord_iff : isOneWord text ↔ text ≠ "" ∧ ' ' ∉ text.toList := by
  simp [isOneWord]

@[simp] theorem words_empty : words "" = [] := by decide

theorem words_append_space (s t : String) : words (s ++ " " ++ t) = words s ++ words t := by
  rw [words, words, words, ← filter_append, ← split_append]
  rfl

theorem words_of_isOneWord (h : isOneWord text) : words text = [text] := by
  obtain ⟨hne, hspace⟩ := isOneWord_iff.mp h
  rw [words, split_of_not_mem hspace]
  simp [hne]

/-- Words with spaces between them are the words of their text. -/
theorem words_intercalate (h : ∀ t ∈ texts, isOneWord t) :
    words (" ".intercalate texts) = texts := by
  induction texts with
  | nil => exact words_empty
  | cons t texts ih =>
    obtain ⟨ht, htexts⟩ := forall_mem_cons.mp h
    cases texts with
    | nil => rw [String.intercalate_singleton, words_of_isOneWord ht]
    | cons u texts =>
      rw [String.intercalate_cons_cons, words_append_space, words_of_isOneWord ht, ih htexts,
        singleton_append]

end Stencil.Text
