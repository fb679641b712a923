import Stencil.Proofs.Token.Effects

/-!
# How words are read

Whether words are style words is hidden in the scanner, but the tokens show it: the last word in the
first column decides. Behind `css` there are only style words up to the next such word, and anywhere
else there are none.
-/
namespace Stencil

open Text (Cluster isLetter isDigit)
open Lexeme TokenKind

/-! ## Regions of styles -/

/-- A word of either mode. -/
def TokenKind.isBareWord : TokenKind → Bool
  | .identifier | .keyword _ | .styleWord => true
  | _ => false

/-- What is read where words are not style words: names and keywords, numbers, signs with a dash. -/
def TokenKind.isPlain : TokenKind → Bool
  | .identifier | .keyword _ | .number | .dash | .arrow => true
  | _ => false

namespace Token

/-- A word in the first column that starts with a letter or an underscore. -/
def isFrontWord (t : Token) : Bool :=
  t.column = 1 && t.kind.isBareWord && t.literal.toList.head?.any isLetter

/-- The mark `!`, which is a sign of its own in every mode. -/
def isNegation (t : Token) : Bool :=
  t.kind = .keyword .not && t.literal.toList.head? = some '!'

end Token

/-- Tokens end in a region of styles if the last word in the first column among them is `css`. -/
def inStyles (ts : List Token) : Bool :=
  (ts.reverse.find? Token.isFrontWord).any (·.literal = "css")

theorem inStyles_concat (ts : List Token) (t : Token) :
    inStyles (ts ++ [t]) = if t.isFrontWord then decide (t.literal = "css") else inStyles ts := by
  rw [inStyles, List.reverse_concat, List.find?_cons]
  cases t.isFrontWord <;> rfl

/-! ## One token -/

/-- The mode after a token, by the mode before it. -/
def WordMode.behind (mode : WordMode) (t : Token) : WordMode :=
  if t.isFrontWord then if t.literal = "css" then .style else .plain else mode

/-- A token fits to the modes before and after it: style words are read in one mode, and in that
mode nothing of the other is read but the words in the first column and the mark `!`. -/
structure Token.Suits (mode : WordMode) (t : Token) (later : WordMode) : Prop where
  behind : later = mode.behind t
  style : t.kind = .styleWord → later = .style
  plain : later = .style → t.kind.isPlain = true → t.isFrontWord = true ∨ t.isNegation = true

namespace Token

variable {t : Token} {mode : WordMode}

theorem not_isFrontWord (h : t.kind.isBareWord = false) : t.isFrontWord = false := by
  rw [isFrontWord, h, Bool.and_false, Bool.false_and]

/-- A token that is no bare word, number or dash does not depend on the mode. -/
theorem suits_other (hword : t.kind.isBareWord = false) (hplain : t.kind.isPlain = false) :
    t.Suits mode mode where
  behind := by rw [WordMode.behind, not_isFrontWord hword, if_neg Bool.false_ne_true]
  style h := by rw [h] at hword; cases hword
  plain _ h := absurd (hplain.symm.trans h) Bool.false_ne_true

theorem suits_error (h : t.kind = .error) : t.Suits mode mode :=
  suits_other (by rw [h]; rfl) (by rw [h]; rfl)

end Token

theorem ofWord_eq_css {word : String} : ofWord word = .keyword .css ↔ word = "css" := by
  constructor
  · intro h
    rw [ofWord] at h
    cases hfind : Keyword.ofText? word with
    | none => rw [hfind] at h; cases h
    | some k =>
      rw [hfind] at h
      cases h
      have htext := @List.find?_some _ (fun k : Keyword => decide (k.text = word)) _ _ hfind
      exact (of_decide_eq_true htext).symm
  · rintro rfl
    rfl

variable {c : Char} {kind : TokenKind} {length : Nat}

/-- The signs that are read only where words are not style words, and the mark `!`. -/
theorem Lexeme.operator_isPlain {next : Option Char} (h : operator c next = some (kind, length))
    (hkind : kind.isPlain) : c = '-' ∨ (c = '!' ∧ kind = .keyword .not) := by
  unfold operator at h
  dsimp only at h
  split at h <;> (try split at h) <;> cases h <;> revert hkind <;> decide

theorem Lexeme.operator_ne_styleWord {next : Option Char}
    (h : operator c next = some (kind, length)) : kind ≠ .styleWord := by
  unfold operator at h
  dsimp only at h
  split at h <;> (try split at h) <;> cases h <;> exact TokenKind.noConfusion

namespace Lexer

variable {l m : Lexer} {t : Token} {k : Cluster} {rest : List Cluster} {result : Scanned}

/-- What a scan comes to fits to the modes of the scanner before and after it. -/
def Rewords (l : Lexer) : Scanned → Prop
  | .ok (t, m) => t.Suits l.mode m.mode
  | .error ((_, _), m) => m.mode = l.mode

section Bare

variable (hrest : l.cursor.rest = k :: rest) (hk : k.lead ≠ '\n') {n : Nat}

include hrest hk

theorem isFrontWord_take (kind : TokenKind) (hn : 0 < n) (mode : WordMode) :
    (take { l with mode := mode } kind n).1.isFrontWord =
      (decide (l.cursor.column = 1) && kind.isBareWord && isLetter k.lead) := by
  have hhead := @head?_literal { l with mode := mode } k rest n hrest kind hn
  rw [Token.isFrontWord, hhead, Option.any_some, ← Cluster.lead_eq_first hk]
  rfl

/-- A style word in the first column starts with a digit or a dash. -/
theorem suits_styleWord (hmode : l.headingMode k.lead = .style) (hn : 0 < n) :
    (l.take .styleWord n).1.Suits l.mode l.mode := by
  have hfront := isFrontWord_take hrest hk .styleWord hn l.mode
  have hside : (decide (l.cursor.column = 1) && isLetter k.lead) = false := by
    rw [headingMode] at hmode
    split at hmode
    · cases hmode
    · next hnot => exact Bool.eq_false_iff.mpr hnot
  rw [TokenKind.isBareWord, Bool.and_true, hside] at hfront
  constructor
  · rw [WordMode.behind, hfront, if_neg Bool.false_ne_true]
  · rw [headingMode, hside, if_neg Bool.false_ne_true] at hmode
    exact fun _ => hmode
  · exact fun _ hkind => absurd hkind Bool.false_ne_true

/-- Another word is read only where the mode is plain, and `css` as a heading changes it. -/
theorem suits_word (hletter : isLetter k.lead) (hmode : l.headingMode k.lead = .plain) :
    (word { l with mode := .plain }).1.Suits l.mode (word { l with mode := .plain }).2.mode := by
  have hpos : 0 < Lexeme.run isNamePart l.cursor.rest := by
    rw [hrest]
    exact run_pos (by rw [isNamePart, hletter]; rfl)
  generalize hword : Cluster.text (l.cursor.rest.take (Lexeme.run isNamePart l.cursor.rest)) = text
  have hbare : (ofWord text).isBareWord := by
    rcases ofWord_cases text with h | ⟨k, h⟩ <;> rw [h] <;> rfl
  have hstyle : ofWord text ≠ .styleWord := by
    rcases ofWord_cases text with h | ⟨k, h⟩ <;> rw [h] <;> exact TokenKind.noConfusion
  have hliteral : (word { l with mode := .plain }).1.literal = text := hword
  have hkind : (word { l with mode := .plain }).1.kind = ofWord text :=
    congrArg ofWord hword
  have hfront : (word { l with mode := .plain }).1.isFrontWord =
      decide (l.cursor.column = 1) := by
    have htake := fun mode => isFrontWord_take hrest hk (ofWord text) hpos mode
    rw [hbare, hletter, Bool.and_true, Bool.and_true, ← hword] at htake
    exact htake _
  have hlater : (word { l with mode := .plain }).2.mode =
      if (ofWord text = .keyword .css && l.cursor.column = 1) = true then .style
      else .plain := by
    rw [← hword]
    rfl
  rw [hlater]
  by_cases hcolumn : l.cursor.column = 1
  · constructor
    · rw [WordMode.behind, hfront, hliteral]
      simp [hcolumn, ofWord_eq_css]
    · exact fun h => absurd (hkind.symm.trans h) hstyle
    · exact fun _ _ => .inl (by rw [hfront, hcolumn]; rfl)
  · have hsame : l.mode = .plain := by
      rw [headingMode, decide_eq_false hcolumn, Bool.false_and, if_neg Bool.false_ne_true] at hmode
      exact hmode
    rw [decide_eq_false hcolumn, Bool.and_false, if_neg Bool.false_ne_true]
    constructor
    · rw [WordMode.behind, hfront, decide_eq_false hcolumn, if_neg Bool.false_ne_true, hsame]
    · exact fun h => absurd (hkind.symm.trans h) hstyle
    · exact fun h => WordMode.noConfusion h

theorem Takes.rewords (h : l.Takes k rest result) : l.Rewords result := by
  have hbehind : ∀ {kind n}, 0 < n → isLetter k.lead = false →
      l.mode = l.mode.behind (l.take kind n).1 := by
    intro kind n hn hletter
    have hfront := isFrontWord_take hrest hk kind hn l.mode
    rw [hletter, Bool.and_false] at hfront
    rw [WordMode.behind, hfront, if_neg Bool.false_ne_true]
  cases h with
  | unterminated | unmatched | unexpected => rfl
  | string | opening | closing => exact Token.suits_other rfl rfl
  | styleWord hstart hmode =>
    refine suits_styleWord hrest hk hmode ?_
    rw [hrest]
    exact run_pos (by rw [isStyleWordPart, hstart]; rfl)
  | word hletter hmode => exact suits_word hrest hk hletter hmode
  | number hdigit hmode =>
    have hpos : 0 < Lexeme.number l.cursor.rest := by
      rw [hrest, Lexeme.number_cons hdigit]
      exact Nat.succ_pos _
    constructor
    · exact hbehind hpos (not_isLetter_of_isDigit hdigit)
    · exact TokenKind.noConfusion
    · exact fun h => absurd (hmode.symm.trans h) WordMode.noConfusion
  | @sign kind n hplain hsign =>
    have hpos := (operator_kind hsign).1
    constructor
    · exact hbehind hpos (operator_start hsign).1
    · exact fun h => absurd h (operator_ne_styleWord hsign)
    · intro hmode hkind
      rcases operator_isPlain hsign hkind with hdash | ⟨hmark, hnot⟩
      · rw [hdash] at hplain
        exact absurd ((hplain rfl).symm.trans hmode) WordMode.noConfusion
      · refine .inr (?_ : (l.take kind n).1.isNegation = true)
        rw [Token.isNegation, @head?_literal l k rest n hrest kind hpos,
          ← Cluster.lead_eq_first hk, hmark]
        subst hnot
        rfl

end Bare

theorem Gives.rewords (h : l.Gives result) : l.Rewords result := by
  cases h with
  | cluster hrest hk htakes => exact htakes.rewords hrest hk
  | _ => exact Token.suits_other rfl rfl

theorem Branches.rewords (h : l.Branches result) : l.Rewords result := by
  cases h with
  | gives hcomes hgives =>
    have hrewords := hgives.rewords
    obtain ⟨n, rfl⟩ := hcomes.exists_skip
    cases result <;> exact hrewords
  | lays _ hlays =>
    cases hlays with
    | tab | uneven => rfl
    | _ => exact Token.suits_other rfl rfl

/-! ## All tokens -/

/-- A fault that the scanner has met is told by an error token. -/
def TellsFault (l : Lexer) : Prop := ∀ failure, l.fault = some failure → failure.1.kind = .error

theorem TellsFault.next (h : l.TellsFault) : l.next.2.TellsFault := by
  rcases next_cases l with ⟨failure, hfault, hnext⟩ | ⟨t, m, hfault, hscan, hnext⟩ |
    ⟨t, fault, m, hfault, hscan, hnext⟩
  · rwa [hnext]
  · rw [hnext]
    intro failure hfailure
    have hnone : m.fault = none := (fault_of_scan hscan).trans hfault
    rw [hnone] at hfailure
    cases hfailure
  · rw [hnext]
    rintro failure ⟨⟩
    cases stuck_of_scan hscan with
    | intro _ hkind => exact hkind

theorem TellsFault.after (h : l.TellsFault) (n : Nat) : (l.after n).TellsFault := by
  induction n generalizing l with
  | zero => exact h
  | succ n ih => exact ih h.next

theorem TellsFault.suits_next (h : l.TellsFault) : l.next.1.Suits l.mode l.next.2.mode := by
  have hwords := l.scan_branches.rewords
  rcases next_cases l with ⟨failure, hfault, hnext⟩ | ⟨t, m, hfault, hscan, hnext⟩ |
    ⟨t, fault, m, hfault, hscan, hnext⟩
  · rw [hnext]
    exact Token.suits_error (h failure hfault)
  · rw [hscan] at hwords
    rw [hnext]
    exact hwords
  · rw [hscan] at hwords
    rw [hnext, show m.mode = l.mode from hwords]
    cases stuck_of_scan hscan with
    | intro _ hkind => exact Token.suits_error hkind

/-- The tokens that the scanner gives one after another, however many are asked for. -/
def given (n : Nat) (l : Lexer) : List Token := (List.range n).map fun i => (l.after i).next.1

theorem given_succ (n : Nat) (l : Lexer) : l.given (n + 1) = l.given n ++ [(l.after n).next.1] := by
  rw [given, List.range_succ, List.map_append]
  rfl

theorem after_succ (n : Nat) (l : Lexer) : l.after (n + 1) = (l.after n).next.2 := after_add n 1 l

/-- The mode can be told from the tokens. -/
theorem TellsFault.mode_after_iff (h : l.TellsFault) (hmode : l.mode = .plain) (n : Nat) :
    (l.after n).mode = .style ↔ inStyles (l.given n) := by
  induction n with
  | zero =>
    rw [Lexer.after, hmode]
    exact iff_of_false WordMode.noConfusion Bool.false_ne_true
  | succ n ih =>
    rw [after_succ, (h.after n).suits_next.behind, WordMode.behind, given_succ, inStyles_concat]
    split
    · split
      · next hliteral => simp [hliteral]
      · next hliteral => simp [hliteral]
    · exact ih

/-- Whichever token comes next, however many have come before it. The scanner reads style words just
if the last word in the first column so far is `css`. A style word stands in such a region, the word
itself counted in, and no name, keyword, number, dash or arrow stands there, but for words in the
first column and the mark for negation. -/
theorem words_by_region (file source : String) (n : Nat) :
    (((start file source).after n).mode = .style ↔
        inStyles ((start file source).given n) = true) ∧
      (((start file source).after n).next.1.kind = .styleWord →
        inStyles ((start file source).given (n + 1)) = true) ∧
      (inStyles ((start file source).given (n + 1)) = true →
        ((start file source).after n).next.1.kind.isPlain = true →
        ((start file source).after n).next.1.isFrontWord = true ∨
          ((start file source).after n).next.1.isNegation = true) := by
  have hl : (start file source).TellsFault := fun failure hfault => by cases hfault
  have hsuits := (hl.after n).suits_next
  rw [← after_succ] at hsuits
  rw [← hl.mode_after_iff rfl n, ← hl.mode_after_iff rfl (n + 1)]
  exact ⟨Iff.rfl, hsuits.style, hsuits.plain⟩

/-- Styles in front of markup: a dash is part of a word in the first block, a sign in the second. -/
def stylesAndMarkup : String := "css:\n  p\n    a-b: 1\nview:\n  a-b\n"

/-- The words of the second block are no style words, so the word `view` has ended the styles. -/
theorem stylesAndMarkup_words_by_region :
    (((start "" stylesAndMarkup).after 7).next.1.kind = .styleWord ∧
        inStyles ((start "" stylesAndMarkup).given 8) = true) ∧
      ((start "" stylesAndMarkup).after 18).next.1.kind = .dash ∧
        inStyles ((start "" stylesAndMarkup).given 19) = false := by
  have hstyle : ((start "" stylesAndMarkup).after 7).next.1.kind = .styleWord := by decide +kernel
  have hdash : ((start "" stylesAndMarkup).after 18).next.1.kind = .dash := by decide +kernel
  have hother : ((start "" stylesAndMarkup).after 18).next.1.isFrontWord = false ∧
      ((start "" stylesAndMarkup).after 18).next.1.isNegation = false := by decide +kernel
  refine ⟨⟨hstyle, (words_by_region "" stylesAndMarkup 7).2.1 hstyle⟩, hdash, ?_⟩
  rw [Bool.eq_false_iff]
  intro hregion
  rcases (words_by_region "" stylesAndMarkup 18).2.2 hregion (by rw [hdash]; rfl) with h | h
  · rw [hother.1] at h
    cases h
  · rw [hother.2] at h
    cases h

/-- The mark for negation is of the kind of a keyword, and it stands in styles too. -/
theorem negation_in_styles :
    ((start "" "css:\n  p\n    color: red !important\n").after 10).next.1 =
        ⟨.keyword .not, "!", 3, 16, 24⟩ ∧
      ((start "" "css:\n  p\n    color: red !important\n").after 10).next.1.isFrontWord = false ∧
      inStyles ((start "" "css:\n  p\n    color: red !important\n").given 11) = true := by
  decide +kernel

end Lexer
end Stencil
