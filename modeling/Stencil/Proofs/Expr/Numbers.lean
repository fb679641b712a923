import Stencil.Proofs.Script.Numerals
import Stencil.Proofs.Style.Spelling
import Stencil.Proofs.Token.Alignment

/-!
# Numbers from the source to the script

A number of a source is kept as it is spelled there, through reading, lowering and printing. So the
numerals in the script of an expression are the numbers of the expression, in their order.
-/
namespace Stencil

open Text (Cluster isDigit isLetter)
open Script (isMark isNameText isNumberText goesOn goesOnAll startsDigit)
open List

/-! ## Spelled tokens -/

section Clusters

variable {source : String} {k : Cluster} {ks : List Cluster} {s marks : List Char}

/-- What else is in a cluster of a word or a number are marks. -/
theorem isMark_of_joined (hk : k ∈ Cluster.segment source)
    (hpart : Lexeme.isStyleWordPart k.lead) : ∀ c ∈ k.joined, isMark c := by
  intro c hc
  have hfirst := hpart
  rw [Lexeme.isStyleWordPart_first hpart] at hfirst
  have hplain := Cluster.isPlain_of_mem (Cluster.isSegmented_segment source) hk
    (Lexeme.isPlain_of_isStyleWordPart hfirst)
  exact decide_eq_true (Text.BreakClass.le_of_attaches (hplain.marks c hc))

theorem goesOnAll_marks (h : ∀ c ∈ marks, isMark c) : goesOnAll (marks ++ s) = goesOnAll s := by
  induction marks with
  | nil => rfl
  | cons c marks ih =>
    obtain ⟨hc, hlater⟩ := forall_mem_cons.mp h
    have hgoes : goesOn c (marks ++ s) := by
      rw [goesOn, hc, Bool.or_true, Bool.true_or]
    rw [cons_append, goesOnAll, hgoes, ih hlater, Bool.true_and]

theorem startsDigit_marks (h : ∀ c ∈ marks, isMark c) :
    startsDigit (marks ++ s) = startsDigit s := by
  have hnone : marks.find? (fun c => !isMark c) = none := by
    rw [find?_eq_none]
    intro c hc
    rw [h c hc]
    exact Bool.false_ne_true
  rw [startsDigit, find?_append, hnone, Option.none_or, startsDigit]

theorem isStyleWordPart_of_isDigit {c : Char} (h : isDigit c) : Lexeme.isStyleWordPart c := by
  rw [Lexeme.isStyleWordPart, Lexeme.isStyleWordStart, h, Bool.or_true]
  rfl

theorem startsDigit_number (h : ks.head?.any (isDigit ·.first)) :
    startsDigit ((ks.take (Lexeme.number ks)).flatMap Cluster.chars) := by
  cases ks with
  | nil => cases h
  | cons j js =>
    have hdigit : isDigit j.first := h
    have hlead : j.lead = j.first := by
      apply Cluster.lead_of_first
      intro hreturn
      rw [hreturn] at hdigit
      exact absurd hdigit (by decide)
    have hmark := Script.not_isMark_of_isDigit hdigit
    rw [Lexeme.number_cons (by rwa [hlead]), take_succ_cons, flatMap_cons, Cluster.chars,
      cons_append, startsDigit, find?_cons_of_pos (by simp [hmark])]
    exact hdigit

/-- What a scanner takes for the rest of a number is the rest of a number. -/
theorem goesOnAll_number (hks : ∀ k ∈ ks, k ∈ Cluster.segment source) :
    goesOnAll ((ks.take (Lexeme.number ks)).flatMap Cluster.chars) := by
  induction ks with
  | nil => rfl
  | cons k ks ih =>
    obtain ⟨hk, hlater⟩ := forall_mem_cons.mp hks
    rw [Lexeme.number]
    split
    · next hpart =>
      rw [Bool.or_eq_true, Bool.or_eq_true, Bool.and_eq_true, decide_eq_true_iff,
        decide_eq_true_iff] at hpart
      have hstyle : Lexeme.isStyleWordPart k.lead := by
        rcases hpart with (hdigit | hline) | ⟨hdot, -⟩
        · exact isStyleWordPart_of_isDigit hdigit
        · rw [hline]; rfl
        · rw [hdot]; rfl
      have hmarks := isMark_of_joined hk hstyle
      rw [Nat.add_comm, take_succ_cons, flatMap_cons, Cluster.chars, cons_append,
        goesOnAll, goesOnAll_marks hmarks, ih hlater, Bool.and_true, goesOn,
        startsDigit_marks hmarks, ← Lexeme.isStyleWordPart_first hstyle]
      rcases hpart with (hdigit | hline) | ⟨hdot, hnext⟩
      · rw [hdigit]; rfl
      · rw [hline]; rfl
      · rw [hdot, startsDigit_number hnext]; rfl
    · rfl

theorem isNumberText_text (hks : ∀ j ∈ k :: ks, j ∈ Cluster.segment source)
    (hdigit : isDigit k.lead) :
    isNumberText (Cluster.text (k :: ks.take (Lexeme.number ks))) := by
  obtain ⟨hk, hlater⟩ := forall_mem_cons.mp hks
  have hstyle := isStyleWordPart_of_isDigit hdigit
  rw [isNumberText, Cluster.text, String.toList_ofList, flatMap_cons, Cluster.chars,
    cons_append, head?_cons, tail_cons, Option.any_some,
    ← Lexeme.isStyleWordPart_first hstyle, hdigit, goesOnAll_marks (isMark_of_joined hk hstyle),
    goesOnAll_number hlater]
  rfl

theorem isNameText_text (hks : ∀ j ∈ k :: ks, j ∈ Cluster.segment source)
    (hstart : isLetter k.lead) (hparts : ∀ j ∈ k :: ks, Lexeme.isNamePart j.lead) :
    isNameText (Cluster.text (k :: ks)) := by
  have hstyle : ∀ j ∈ k :: ks, Lexeme.isStyleWordPart j.lead := by
    intro j hj
    have hpart := hparts j hj
    rw [Lexeme.isNamePart] at hpart
    rw [Lexeme.isStyleWordPart, Lexeme.isStyleWordStart, hpart]
    rfl
  have hletter : ∀ c, isLetter c → Script.isNameStart c := by
    intro c hc
    rw [Script.isNameStart]
    exact Bool.or_eq_true_iff.mpr (.inl hc)
  rw [isNameText, Cluster.text, String.toList_ofList, Bool.and_eq_true, all_eq_true]
  constructor
  · apply hletter
    rw [← Lexeme.isStyleWordPart_first (hstyle k mem_cons_self)]
    exact hstart
  · intro c hc
    obtain ⟨j, hj, hmem⟩ := mem_flatMap.mp hc
    rcases mem_cons.mp hmem with rfl | hjoined
    · have hpart := hparts j hj
      rw [Lexeme.isStyleWordPart_first (hstyle j hj), Lexeme.isNamePart, Bool.or_eq_true] at hpart
      rw [Script.isWordPart, Bool.or_eq_true, Bool.or_eq_true]
      exact .inl (hpart.imp (hletter _) id)
    · rw [Script.isWordPart, isMark_of_joined (hks j hj) (hstyle j hj) c hjoined, Bool.or_true]

end Clusters

/-- Names and numbers are texts that a script takes for such. -/
structure Token.IsSpelled (t : Token) : Prop where
  number : t.kind = .number → isNumberText t.literal = true
  word : t.isWord = true → isNameText t.literal = true

theorem Token.isNameText_literal {t : Token} {source : String}
    (ht : t.SpelledIn (Cluster.segment source)) (hword : t.isWord) :
    isNameText t.literal := by
  have hspelled := Token.isSpelled_of_isWord hword
  obtain ⟨ks, hks, hliteral, hspells⟩ := ht.literal hspelled
  rw [isWord, hliteral] at hword
  rw [hliteral]
  generalize t.kind = kind at hword hspelled hspells
  cases hspells with
  | word hstart hparts => exact isNameText_text hks.subset hstart hparts
  | styleWord | number | string => cases hword
  | sign hsign =>
    rcases operator_cases hsign hspelled with ⟨-, rfl⟩ | ⟨hmark, rfl⟩
    · cases hword
    · -- the mark is no word
      have hfirst := @Cluster.lead_eq_first _ (by rw [hmark]; decide)
      dsimp only at hword
      rw [Cluster.text, String.toList_ofList, flatMap_cons, Cluster.chars, cons_append,
        head?_cons, Option.any_some, ← hfirst, hmark] at hword
      cases hword

namespace Lexer

variable {l : Lexer} {k : Cluster} {rest : List Cluster} {result : Scanned}

/-- A number is the longest one at a place of the source. -/
def Numbers (l : Lexer) : Scanned → Prop
  | .ok (t, _) => t.kind = .number → ∃ k ks, k :: ks <:+ l.cursor.rest ∧
    isDigit k.lead = true ∧ t.literal = Cluster.text (k :: ks.take (Lexeme.number ks))
  | .error _ => True

theorem Numbers.of_skip {n : Nat} (h : Numbers { l with cursor := l.cursor.skip n } result) :
    l.Numbers result := by
  cases result with
  | error => trivial
  | ok next =>
    intro hkind
    obtain ⟨k, ks, hks, hdigit, hliteral⟩ := h hkind
    rw [Cursor.rest_skip] at hks
    exact ⟨k, ks, hks.trans (drop_suffix _ _), hdigit, hliteral⟩

theorem Takes.numbers (hrest : l.cursor.rest = k :: rest) (h : l.Takes k rest result) :
    l.Numbers result := by
  cases h with
  | unterminated | unmatched | unexpected => trivial
  | string | opening | closing | styleWord => exact TokenKind.noConfusion
  | word =>
    intro hkind
    change TokenKind.ofWord _ = .number at hkind
    rw [TokenKind.ofWord] at hkind
    split at hkind <;> cases hkind
  | number hdigit =>
    intro _
    have htake : l.cursor.rest.take (Lexeme.number l.cursor.rest) =
        k :: rest.take (Lexeme.number rest) := by
      rw [hrest, Lexeme.number_cons hdigit, take_succ_cons]
    exact ⟨k, rest, by rw [hrest], hdigit, congrArg Cluster.text htake⟩
  | @sign kind length _ hsign =>
    intro hkind
    have hspelled : kind.isSpelled := by
      change kind = .number at hkind
      rw [hkind]
      rfl
    rcases operator_cases hsign hspelled with ⟨-, rfl⟩ | ⟨-, rfl⟩ <;> cases hkind

theorem Gives.numbers (h : l.Gives result) : l.Numbers result := by
  cases h with
  | cluster hrest _ htakes => exact htakes.numbers hrest
  | _ => exact TokenKind.noConfusion

theorem Branches.numbers (h : l.Branches result) : l.Numbers result := by
  cases h with
  | gives hcomes hgives =>
    obtain ⟨n, rfl⟩ := hcomes.exists_skip
    exact hgives.numbers.of_skip
  | lays _ hlays =>
    cases hlays with
    | tab | uneven => trivial
    | _ => exact TokenKind.noConfusion

end Lexer

/-- Every token of a source is spelled so that a script takes it for what it is. -/
theorem Scan.isSpelled (file source : String) :
    (∀ t ∈ (Scan.of file source).tokens, t.IsSpelled) ∧
      (Scan.of file source).ending.token.IsSpelled := by
  have hnumbers : (∀ t ∈ (Scan.of file source).tokens, t.kind = .number →
      isNumberText t.literal) ∧ ((Scan.of file source).ending.token.kind = .number →
      isNumberText (Scan.of file source).ending.token.literal) := by
    refine Lexer.Ends.all_tokens (P := fun t => t.kind = .number → isNumberText t.literal)
      (I := fun l => l.cursor.rest <:+ Cluster.segment source) ?_ ?_ (Scan.ends_of file source)
      (suffix_refl _)
    · intro t herror hkind
      rw [herror] at hkind
      cases hkind
    · intro l t m hl hscan
      obtain ⟨skipped, taken, hpass⟩ := (Lexer.step_of_scan hscan).passes
      constructor
      · intro hkind
        have hnumbers := l.scan_branches.numbers
        rw [hscan] at hnumbers
        obtain ⟨k, ks, hks, hdigit, hliteral⟩ := hnumbers hkind
        rw [hliteral]
        exact isNumberText_text (hks.trans hl).subset hdigit
      · have hm : m.cursor.rest <:+ l.cursor.rest := by
          rw [hpass.rest, ← append_assoc]
          exact suffix_append _ _
        exact hm.trans hl
  obtain ⟨htokens, hending⟩ := Scan.spelledIn file source
  constructor
  · exact fun t ht => ⟨hnumbers.1 t ht, Token.isNameText_literal (htokens t ht)⟩
  · exact ⟨hnumbers.2, Token.isNameText_literal hending⟩

/-! ## Numbers of an expression -/

mutual

/-- The numbers of an expression from left to right, as they are spelled, and whether each is the
object of an attribute. -/
def Expr.numbers (attributed : Bool) : Expr → List (String × Bool)
  | .number _ digits => [(digits, attributed)]
  | .name .. | .string .. => []
  | .new _ operand | .not _ operand => operand.numbers false
  | .and _ left right | .or _ left right | .arithmetic _ _ left right | .relation _ _ left right =>
    left.numbers false ++ right.numbers false
  | .attribute _ object _ => object.numbers true
  | .item _ object index => object.numbers false ++ index.numbers false
  | .call _ function arguments => function.numbers false ++ numbersOfAll arguments
  | .format _ segments => numbersOfSegments segments
  | .dictionary _ items => numbersOfItems items
  | .list _ items => numbersOfAll items

def numbersOfAll : List Expr → List (String × Bool)
  | [] => []
  | x :: xs => x.numbers false ++ numbersOfAll xs

def numbersOfItems : List (String × Expr) → List (String × Bool)
  | [] => []
  | (_, x) :: items => x.numbers false ++ numbersOfItems items

def numbersOfSegments : List Segment → List (String × Bool)
  | [] => []
  | .text _ :: segments => numbersOfSegments segments
  | .expr x :: segments => x.numbers false ++ numbersOfSegments segments

end

namespace Script

theorem numbers_concat {first : Expr} {attributed : Bool}
    (h : first.numbers attributed = first.numbers false) (rest : List Expr) :
    (Expr.concat first rest).numbers attributed = first.numbers false ++ itemNumbers rest := by
  rw [Expr.concat]
  induction rest generalizing first with
  | nil =>
    rw [itemNumbers, append_nil]
    exact h
  | cons x rest ih =>
    have hjoined : (Expr.operation (.arith .add) first x).numbers attributed =
        (Expr.operation (.arith .add) first x).numbers false := rfl
    rw [foldl_cons, ih hjoined, Expr.numbers, itemNumbers, append_assoc]

theorem isSpelled_concat (first : Expr) (rest : List Expr) :
    (Expr.concat first rest).isSpelled = (first.isSpelled && itemsSpelled rest) := by
  rw [Expr.concat]
  induction rest generalizing first with
  | nil =>
    rw [itemsSpelled, Bool.and_true]
    rfl
  | cons x rest ih => rw [foldl_cons, ih, Expr.isSpelled, itemsSpelled, Bool.and_assoc]

end Script

/-- The value of a text is a sum of texts and of calls, so it is no number itself. -/
theorem numbers_concatenation (segments : List Segment) (attributed : Bool) :
    (concatenation (lowerSegments segments)).numbers attributed =
      Script.itemNumbers (lowerSegments segments) := by
  rcases segments with _ | ⟨_ | x, segments⟩
  · rfl
  · apply Script.numbers_concat
    rfl
  · apply Script.numbers_concat
    rfl

theorem isSpelled_concatenation (segments : List Segment) :
    (concatenation (lowerSegments segments)).isSpelled =
      Script.itemsSpelled (lowerSegments segments) := by
  rcases segments with _ | ⟨_ | x, segments⟩
  · rfl
  · exact Script.isSpelled_concat _ _
  · exact Script.isSpelled_concat _ _

mutual

/-- Lowering keeps the numbers. -/
theorem Expr.numbers_lower : ∀ (x : Expr) (attributed : Bool),
    x.lower.numbers attributed = x.numbers attributed
  | .name .., _ | .string .., _ | .number .., _ => rfl
  | .new _ operand, _ | .not _ operand, _ => operand.numbers_lower false
  | .and _ left right, _ | .or _ left right, _ | .arithmetic _ _ left right, _
  | .relation _ _ left right, _ | .item _ left right, _ =>
    congrArg₂ (· ++ ·) (left.numbers_lower false) (right.numbers_lower false)
  | .attribute _ object _, _ => object.numbers_lower true
  | .call _ function arguments, _ =>
    congrArg₂ (· ++ ·) (function.numbers_lower false) (itemNumbers_lowerAll arguments)
  | .format _ segments, attributed => by
    rw [Expr.lower, numbers_concatenation, Expr.numbers, itemNumbers_lowerSegments segments]
  | .dictionary _ items, _ => propertyNumbers_lowerItems items
  | .list _ items, _ => itemNumbers_lowerAll items

theorem itemNumbers_lowerAll : ∀ xs : List Expr,
    Script.itemNumbers (lowerAll xs) = numbersOfAll xs
  | [] => rfl
  | x :: xs => congrArg₂ (· ++ ·) (x.numbers_lower false) (itemNumbers_lowerAll xs)

theorem propertyNumbers_lowerItems : ∀ items : List (String × Expr),
    Script.propertyNumbers (lowerItems items) = numbersOfItems items
  | [] => rfl
  | (_, x) :: items =>
    congrArg₂ (· ++ ·) (x.numbers_lower false) (propertyNumbers_lowerItems items)

theorem itemNumbers_lowerSegments : ∀ segments : List Segment,
    Script.itemNumbers (lowerSegments segments) = numbersOfSegments segments
  | [] => rfl
  | .text _ :: segments => itemNumbers_lowerSegments segments
  | .expr x :: segments => by
    rw [lowerSegments, Script.itemNumbers, itemNumbers_lowerSegments segments, numbersOfSegments,
      ← x.numbers_lower false]
    exact congrArg (· ++ _) (append_nil _)

end

/-! ## Reading expressions -/

namespace Expr

/-- Names and numbers are spelled as a script takes them. -/
def IsSpelled (x : Expr) : Prop := x.lower.isSpelled = true

theorem itemsSpelled_lowerAll {xs : List Expr} (h : ∀ x ∈ xs, x.IsSpelled) :
    Script.itemsSpelled (lowerAll xs) := by
  induction xs with
  | nil => rfl
  | cons x xs ih =>
    obtain ⟨hx, hlater⟩ := forall_mem_cons.mp h
    exact Bool.and_eq_true_iff.mpr ⟨hx, ih hlater⟩

theorem propertiesSpelled_lowerItems {items : List (String × Expr)}
    (h : ∀ item ∈ items, item.2.IsSpelled) :
    Script.propertiesSpelled (lowerItems items) := by
  induction items with
  | nil => rfl
  | cons item items ih =>
    obtain ⟨hitem, hlater⟩ := forall_mem_cons.mp h
    exact Bool.and_eq_true_iff.mpr ⟨hitem, ih hlater⟩

theorem isSpelled_ofSegments (p : Position) {segments : List Segment}
    (h : Script.itemsSpelled (lowerSegments segments)) :
    (ofSegments p segments).IsSpelled := by
  unfold ofSegments
  split
  · rw [IsSpelled, Expr.lower, isSpelled_concatenation, h]
  · rfl

/-- A reading of spelled tokens that splits texts in a given way. -/
def SplitBy (splits : String → List Segment) (reading : Reading) (t : Token) : Prop :=
  reading.split = splits ∧ t.IsSpelled

theorem grows_isSpelled {splits : String → List Segment}
    (hsplits : ∀ text, Script.itemsSpelled (lowerSegments (splits text))) :
    Grows (SplitBy splits) IsSpelled where
  name ht hkind := ht.2.word (by rw [Token.isWord, hkind])
  number ht hkind := ht.2.number hkind
  string _ _ _ _ _ ht := isSpelled_ofSegments _ (ht.1 ▸ hsplits _)
  dictionary _ _ h := propertiesSpelled_lowerItems h
  list := itemsSpelled_lowerAll
  new := id
  not := id
  and hx hy := Bool.and_eq_true_iff.mpr ⟨hx, hy⟩
  or hx hy := Bool.and_eq_true_iff.mpr ⟨hx, hy⟩
  arithmetic hx hy := Bool.and_eq_true_iff.mpr ⟨hx, hy⟩
  relation hx hy := Bool.and_eq_true_iff.mpr ⟨hx, hy⟩
  member hx ht hword := Bool.and_eq_true_iff.mpr ⟨hx, ht.2.word hword⟩
  item hx hy := Bool.and_eq_true_iff.mpr ⟨hx, hy⟩
  call hx hitems := Bool.and_eq_true_iff.mpr ⟨hx, itemsSpelled_lowerAll hitems⟩

/-- An expression of a source is spelled if the texts in it are split into such. -/
theorem isSpelled_of_readWith {splits : String → List Segment} {file source : String} {x : Expr}
    (hsplits : ∀ text, Script.itemsSpelled (lowerSegments (splits text)))
    (h : readWith splits file source = .ok x) : x.IsSpelled := by
  obtain ⟨htokens, hending⟩ := Scan.isSpelled file source
  exact of_readWith (grows_isSpelled hsplits) ⟨fun t ht => ⟨rfl, htokens t ht⟩, rfl, hending⟩ h

end Expr

namespace Format

theorem itemsSpelled_prepend (text : String) (found : List Segment) :
    Script.itemsSpelled (lowerSegments (Segment.prepend text found)) =
      Script.itemsSpelled (lowerSegments found) := by
  rcases found with _ | ⟨_ | x, found⟩ <;> rfl

theorem itemsSpelled_plain (text : String) :
    Script.itemsSpelled (lowerSegments (Segment.plain text)) := by
  unfold Segment.plain
  split <;> rfl

theorem itemsSpelled_segments {read : String → Except Fault Expr}
    (hread : ∀ source x, read source = .ok x → x.IsSpelled) (ps : List Piece) :
    Script.itemsSpelled (lowerSegments (segments read ps)) := by
  induction ps with
  | nil => rfl
  | cons piece ps ih =>
    cases piece with
    | char c => rw [segments, itemsSpelled_prepend, ih]
    | doubled brace => rw [segments, itemsSpelled_prepend, ih]
    | span source =>
      rw [segments]
      split
      · next x hx =>
        have hcall : Script.Expr.isSpelled (.call (.name "String") [x.lower]) := by
          have hname : isNameText "String" := by decide
          have hx : x.lower.isSpelled := hread _ x hx
          simp only [Script.Expr.isSpelled, Script.itemsSpelled, hname, hx, Bool.and_self]
        exact Bool.and_eq_true_iff.mpr ⟨hcall, ih⟩
      · exact itemsSpelled_plain _

/-- However deep format strings are nested, the expressions in them are read from sources too. -/
theorem itemsSpelled_splitWithin (depth : Nat) (text : String) :
    Script.itemsSpelled (lowerSegments (splitWithin depth text)) := by
  induction depth generalizing text with
  | zero => exact itemsSpelled_plain text
  | succ depth ih =>
    exact itemsSpelled_segments (fun _ _ hx => Expr.isSpelled_of_readWith ih hx) _

end Format

namespace Expr

variable {file source : String} {x : Expr}

theorem isSpelled_of_read (h : read file source = .ok x) : x.IsSpelled :=
  isSpelled_of_readWith (fun text => Format.itemsSpelled_splitWithin text.length text) h

/-- A block that gives the value of an expression. -/
def block (x : Expr) : MarkupBlock := ⟨"f", [], [], [.output {} x], {}⟩

/-- The script of an expression. -/
def script (width : Int) (x : Expr) : String := Script.Code.text width [x.block.lower {}]

theorem lower_block (x : Expr) : x.block.lower {} = .function "f" [] [.ret x.lower] := rfl

/-- The numerals in the script of an expression are its numbers, as they are spelled and in their
order. A dot comes right after a numeral only where the expression takes an attribute of it. -/
theorem numerals_of_script (h : read file source = .ok x) (width : Int) :
    List.Forall₂ Script.Shown (x.numbers false) (Script.numerals (x.script width)) := by
  have hspelled : Script.bodySpelled [x.block.lower {}] = true := by
    have hx : x.lower.isSpelled = true := isSpelled_of_read h
    have hname : isNameText "f" = true := by decide
    rw [lower_block]
    simp only [Script.bodySpelled, Script.Stmt.isSpelled, hname, hx, Bool.and_true]
    rfl
  have hnumbers : Script.bodyNumbers [x.block.lower {}] = x.numbers false := by
    rw [lower_block, ← x.numbers_lower]
    simp only [Script.bodyNumbers, Script.Stmt.numbers, List.append_nil]
  rw [← hnumbers]
  exact Script.Code.numerals_text width hspelled

/-- Numbers in a call, in an index and in a format string, and the attribute of a number. -/
def priceSource : String := "f(1_0.5, x.y1[2] - 3.size, \"4: \x7b5 * n\x7d\")"

theorem priceSource_numerals :
    ∃ x, read "page" priceSource = .ok x ∧
      x.numbers false = [("1_0.5", false), ("2", false), ("3", true), ("5", false)] ∧
      List.Forall₂ Script.Shown (x.numbers false) (Script.numerals (x.script 2)) := by
  obtain ⟨x, hx, hnumbers⟩ := @exists_of_toOption _ _ (read "page" priceSource)
    (fun x => x.numbers false = [("1_0.5", false), ("2", false), ("3", true), ("5", false)])
    (by decide +kernel)
  exact ⟨x, hx, of_decide_eq_true hnumbers, numerals_of_script hx 2⟩

end Expr

/-! ## Numerals that a script does not allow -/

namespace Script.Numeral

/-- Digits with single underscores between them. -/
def isGrouped : List Char → Bool
  | [] => false
  | [c] => isDigit c
  | c :: '_' :: s => isDigit c && isGrouped s
  | c :: s => isDigit c && isGrouped s

/-- At most one dot, with digits on both sides. -/
def isPlain (n : Numeral) : Bool :=
  (Text.splitChars '.' n.text).length ≤ 2 && (Text.splitChars '.' n.text).all isGrouped

/-- A dot and a name come right after a numeral without a dot. -/
def takesName (n : Numeral) : Bool :=
  !n.text.contains '.' && n.after.head? == some '.' && n.after.tail.head?.any isNameStart

end Script.Numeral

/-- Underscores side by side and at the end, two dots, a mark on a digit, and the attribute of a
number. -/
def looseSource : String := "1__2_ + 3.4.5 + 7\u0301 + 6.size"

/-- The shape of a number is not checked, and the attribute of a number is not set apart from it. -/
theorem numerals_not_plain :
    ∃ x, Expr.read "page" looseSource = .ok x ∧
      (Script.numerals (x.script 4)).map (·.isPlain) = [false, false, false, true] ∧
      (Script.numerals (x.script 4)).map (·.takesName) = [false, false, false, true] := by
  obtain ⟨x, hx, htest⟩ := @exists_of_toOption _ _ (Expr.read "page" looseSource)
    (fun x => (Script.numerals (x.script 4)).map (·.isPlain) = [false, false, false, true] ∧
      (Script.numerals (x.script 4)).map (·.takesName) = [false, false, false, true])
    (by decide +kernel)
  exact ⟨x, hx, of_decide_eq_true htest⟩

end Stencil
