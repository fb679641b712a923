import Mathlib.Data.List.Forall2
import Stencil.Proofs.Script.Places

/-!
# Numerals of a script

The text of a script is gone through once, past its words and strings, and every numeral in it is
found together with what follows it. The numerals of a printed script are the numbers of its tree, in
their order and as they were given. None of them runs into what follows: a dot comes right after a
numeral only where the tree takes an attribute of that number.
-/
namespace Stencil.Script

open Text (isDigit)
open List Bool

/-! ## Numerals of a text -/

/-- A mark on a character before it. Outside of strings no other character is beyond ASCII. -/
def isMark (c : Char) : Bool := 0x80 ≤ c.toNat

def isWordPart (c : Char) : Bool := isNameStart c || isDigit c || isMark c

/-- The first character that is no mark is a digit. -/
def startsDigit (s : List Char) : Bool := (s.find? fun c => !isMark c).any isDigit

/-- A numeral goes on with digits, underscores and marks, and with a dot in front of a digit. -/
def goesOn (c : Char) (s : List Char) : Bool :=
  isDigit c || c == '_' || isMark c || (c == '.' && startsDigit s)

/-- What is left of a numeral, and what follows it. -/
def numeralRest : List Char → List Char × List Char
  | [] => ([], [])
  | c :: s => if goesOn c s then (c :: (numeralRest s).1, (numeralRest s).2) else ([], c :: s)

/-- What the last character before a place belongs to. -/
inductive Inside where
  | nothing | word | numeral | string | escape
deriving DecidableEq, Repr

def Inside.enter (c : Char) : Inside :=
  if c = '"' then .string
  else if isDigit c then .numeral
  else if isWordPart c then .word
  else .nothing

def Inside.next (place : Inside) (c : Char) (s : List Char) : Inside :=
  match place with
  | .nothing => enter c
  | .word => if isWordPart c then .word else enter c
  | .numeral => if goesOn c s then .numeral else enter c
  | .string => if c = '"' then .nothing else if c = '\\' then .escape else .string
  | .escape => .string

/-- A numeral and the text after it. -/
structure Numeral where
  text : List Char
  after : List Char
deriving DecidableEq, Repr

def numeralsFrom (place : Inside) : List Char → List Numeral
  | [] => []
  | c :: s =>
    let later := numeralsFrom (place.next c s) s
    if place ≠ .numeral ∧ place.next c s = .numeral then
      ⟨c :: (numeralRest s).1, (numeralRest s).2⟩ :: later
    else later

def numerals (text : String) : List Numeral := numeralsFrom .nothing text.toList

-- Neither the digits of a word nor those of a string are numerals.
example : (numerals "a1[2.5_0].b3 + \"4\\\"5\"").map (String.ofList ·.text) = ["2.5_0"] := by
  decide +kernel

namespace Numeral

/-- Marks apart, a digit and then digits, underscores and dots in front of digits. -/
def isShaped (n : Numeral) : Bool := isNumeral (String.ofList (n.text.filter fun c => !isMark c))

end Numeral

/-! ## Numbers of a tree -/

mutual

/-- The numbers of an expression, and whether each is the object of an attribute. -/
def Expr.numbers (attributed : Bool) : Expr → List (String × Bool)
  | .number digits => [(digits, attributed)]
  | .string _ | .name _ | .missing => []
  | .object properties => propertyNumbers properties
  | .list items => itemNumbers items
  | .attribute object _ => object.numbers true
  | .item object index => object.numbers false ++ index.numbers false
  | .call function arguments => function.numbers false ++ itemNumbers arguments
  | .new operand | .not operand => operand.numbers false
  | .and left right | .or left right | .operation _ left right =>
    left.numbers false ++ right.numbers false
  | .function _ _ body => bodyNumbers body
  | .assign object _ value => object.numbers true ++ value.numbers false
  | .ternary condition chosen otherwise =>
    condition.numbers false ++ (chosen.numbers false ++ otherwise.numbers false)

def propertyNumbers : List (String × Expr) → List (String × Bool)
  | [] => []
  | (_, value) :: rest => value.numbers false ++ propertyNumbers rest

def itemNumbers : List Expr → List (String × Bool)
  | [] => []
  | item :: rest => item.numbers false ++ itemNumbers rest

def Stmt.numbers : Stmt → List (String × Bool)
  | .expr value | .ret value | .var _ value => value.numbers false
  | .function _ _ body => bodyNumbers body
  | .missing => []

def bodyNumbers : List Stmt → List (String × Bool)
  | [] => []
  | s :: rest => s.numbers ++ bodyNumbers rest

end

/-- A word as a source spells it, with marks on its characters. -/
def isNameText (name : String) : Bool :=
  name.toList.head?.any isNameStart && name.toList.all isWordPart

def goesOnAll : List Char → Bool
  | [] => true
  | c :: s => goesOn c s && goesOnAll s

/-- A number as a source spells it, with marks on its characters. -/
def isNumberText (digits : String) : Bool :=
  digits.toList.head?.any isDigit && goesOnAll digits.toList.tail

def paramsSpelled (params : List (String × Option Expr)) : Bool := params.all (isNameText ·.1)

mutual

/-- Trees whose names and numbers are spelled as those of a source. -/
def Expr.isSpelled : Expr → Bool
  | .string _ | .missing => true
  | .number digits => isNumberText digits
  | .name name => isNameText name
  | .object properties => propertiesSpelled properties
  | .list items => itemsSpelled items
  | .attribute object name => object.isSpelled && isNameText name
  | .item object index => object.isSpelled && index.isSpelled
  | .call function arguments => function.isSpelled && itemsSpelled arguments
  | .new operand | .not operand => operand.isSpelled
  | .and left right | .or left right | .operation _ left right =>
    left.isSpelled && right.isSpelled
  | .function name params body =>
    (name.isEmpty || isNameText name) && paramsSpelled params && bodySpelled body
  | .assign object name value => object.isSpelled && isNameText name && value.isSpelled
  | .ternary condition chosen otherwise =>
    condition.isSpelled && chosen.isSpelled && otherwise.isSpelled

def propertiesSpelled : List (String × Expr) → Bool
  | [] => true
  | (_, value) :: rest => value.isSpelled && propertiesSpelled rest

def itemsSpelled : List Expr → Bool
  | [] => true
  | item :: rest => item.isSpelled && itemsSpelled rest

def Stmt.isSpelled : Stmt → Bool
  | .expr value | .ret value => value.isSpelled
  | .var name value => isNameText name && value.isSpelled
  | .function name params body => isNameText name && paramsSpelled params && bodySpelled body
  | .missing => true

def bodySpelled : List Stmt → Bool
  | [] => true
  | s :: rest => s.isSpelled && bodySpelled rest

end

/-! ## Going over a text -/

section Walk

variable {c : Char} {s t : List Char} {place : Inside} {name digits : String}

/-- No word and no numeral goes on here. -/
def isClear : List Char → Bool
  | [] => true
  | c :: s => !isWordPart c && !(c == '.' && startsDigit s)

theorem goesOn_of_isClear (h : isClear (c :: s)) : goesOn c s = false := by
  rw [isClear, and_eq_true, not_eq_true', not_eq_true', isWordPart] at h
  simp only [or_eq_false_iff] at h
  have hscore : c ≠ '_' := by
    rintro rfl
    exact absurd h.1.1.1 (by decide)
  rw [goesOn, h.1.1.2, h.1.2, h.2, beq_eq_false_iff_ne.mpr hscore]
  rfl

theorem numeralsFrom_of_isClear (h : isClear s)
    (hplace : place = .word ∨ place = .numeral) :
    numeralsFrom place s = numeralsFrom .nothing s := by
  cases s with
  | nil => rfl
  | cons c s =>
    have hgoes := goesOn_of_isClear h
    rw [isClear, and_eq_true, not_eq_true'] at h
    have henter : Inside.enter c ≠ .numeral := by
      have hdigit : isDigit c = false := by
        have := h.1
        simp only [isWordPart, or_eq_false_iff] at this
        exact this.1.2
      rw [Inside.enter, hdigit]
      split
      · exact Inside.noConfusion
      · rw [if_neg Bool.false_ne_true]
        split <;> exact Inside.noConfusion
    have hnext : place.next c s = Inside.enter c := by
      rcases hplace with rfl | rfl
      · rw [Inside.next, h.1, if_neg Bool.false_ne_true]
      · rw [Inside.next, hgoes, if_neg Bool.false_ne_true]
    have hnothing : Inside.nothing.next c s = Inside.enter c := rfl
    rw [numeralsFrom, numeralsFrom, hnext, hnothing, if_neg fun h => henter h.2,
      if_neg fun h => henter h.2]

/-- A word is passed over. -/
theorem numeralsFrom_word (h : ∀ c ∈ t, isWordPart c) :
    numeralsFrom .word (t ++ s) = numeralsFrom .word s := by
  induction t with
  | nil => rfl
  | cons c t ih =>
    obtain ⟨hc, hlater⟩ := forall_mem_cons.mp h
    have hnext : Inside.word.next c (t ++ s) = .word := by rw [Inside.next, if_pos hc]
    rw [cons_append, numeralsFrom, hnext, if_neg fun h => Inside.noConfusion h.2]
    exact ih hlater

theorem isNameText_cases (h : isNameText name) :
    ∃ c t, name.toList = c :: t ∧ isNameStart c ∧ ∀ d ∈ t, isWordPart d := by
  rw [isNameText, and_eq_true, all_eq_true] at h
  cases hname : name.toList with
  | nil =>
    rw [hname] at h
    cases h.1
  | cons c t =>
    rw [hname] at h
    exact ⟨c, t, rfl, h.1, (forall_mem_cons.mp h.2).2⟩

theorem numeralsFrom_name (h : isNameText name) (hs : isClear s) :
    numeralsFrom .nothing (name.toList ++ s) = numeralsFrom .nothing s := by
  obtain ⟨c, t, hname, hstart, hparts⟩ := isNameText_cases h
  have hquote : c ≠ '"' := by
    rintro rfl
    exact absurd hstart (by decide)
  have hword : isWordPart c := by rw [isWordPart, hstart]; rfl
  have hnext : Inside.nothing.next c (t ++ s) = .word := by
    rw [Inside.next, Inside.enter, if_neg hquote, (Reader.isNameStart_ne hstart).2.2,
      if_neg Bool.false_ne_true, if_pos hword]
  rw [hname, cons_append, numeralsFrom, hnext, if_neg fun h => Inside.noConfusion h.2,
    numeralsFrom_word hparts]
  exact numeralsFrom_of_isClear hs (.inl rfl)

theorem startsDigit_append (h : startsDigit t) : startsDigit (t ++ s) := by
  rw [startsDigit, Option.any_eq_true] at h ⊢
  obtain ⟨d, hfind, hd⟩ := h
  refine ⟨d, ?_, hd⟩
  rw [find?_append, hfind]
  rfl

theorem goesOn_append (h : goesOn c t) : goesOn c (t ++ s) := by
  simp only [goesOn, Bool.or_eq_true, Bool.and_eq_true] at h ⊢
  exact h.imp id (And.imp id startsDigit_append)

/-- A numeral ends where no numeral goes on. -/
theorem numeralRest_append (h : goesOnAll t) (hs : isClear s) :
    numeralRest (t ++ s) = (t, s) ∧
      numeralsFrom .numeral (t ++ s) = numeralsFrom .nothing s := by
  induction t with
  | nil =>
    refine ⟨?_, numeralsFrom_of_isClear hs (.inr rfl)⟩
    cases s with
    | nil => rfl
    | cons c s =>
      rw [nil_append, numeralRest, goesOn_of_isClear hs, if_neg Bool.false_ne_true]
  | cons c t ih =>
    rw [goesOnAll, Bool.and_eq_true] at h
    obtain ⟨hrest, hlater⟩ := ih h.2
    have hgoes : goesOn c (t ++ s) := goesOn_append h.1
    have hnext : Inside.numeral.next c (t ++ s) = .numeral := by rw [Inside.next, if_pos hgoes]
    rw [cons_append]
    constructor
    · rw [numeralRest, if_pos hgoes, hrest]
    · rw [numeralsFrom, hnext, if_neg fun h => h.1 rfl]
      exact hlater

theorem isNumberText_cases (h : isNumberText digits) :
    ∃ c t, digits.toList = c :: t ∧ isDigit c ∧ goesOnAll t := by
  rw [isNumberText, Bool.and_eq_true] at h
  cases hdigits : digits.toList with
  | nil =>
    rw [hdigits] at h
    cases h.1
  | cons c t =>
    rw [hdigits] at h
    exact ⟨c, t, rfl, h⟩

theorem numeralsFrom_number (h : isNumberText digits) (hs : isClear s) :
    numeralsFrom .nothing (digits.toList ++ s) =
      ⟨digits.toList, s⟩ :: numeralsFrom .nothing s := by
  obtain ⟨c, t, hdigits, hdigit, hgoes⟩ := isNumberText_cases h
  have hquote : c ≠ '"' := by
    rintro rfl
    exact absurd hdigit (by decide)
  have hnext : Inside.nothing.next c (t ++ s) = .numeral := by
    rw [Inside.next, Inside.enter, if_neg hquote, if_pos hdigit]
  obtain ⟨hrest, hlater⟩ := numeralRest_append hgoes hs
  rw [hdigits, cons_append, numeralsFrom, hnext, if_pos ⟨Inside.noConfusion, rfl⟩, hrest,
    hlater]

/-! ### Strings -/

theorem numeralsFrom_string (hquote : c ≠ '"') (hslash : c ≠ '\\') :
    numeralsFrom .string (c :: s) = numeralsFrom .string s := by
  have hnext : Inside.string.next c s = .string := by
    rw [Inside.next, if_neg hquote, if_neg hslash]
  rw [numeralsFrom, hnext, if_neg fun h => Inside.noConfusion h.2]

theorem numeralsFrom_escape (c : Char) (s : List Char) :
    numeralsFrom .string ('\\' :: c :: s) = numeralsFrom .string s := rfl

theorem Spells.numeralsFrom_append {cs : List Char} (h : Spells c cs) (s : List Char) :
    numeralsFrom .string (cs ++ s) = numeralsFrom .string s := by
  cases h with
  | letter => exact numeralsFrom_escape _ s
  | code hcode hcontrol hlow =>
    obtain ⟨-, -, -, hhigh⟩ := hexValue_digitChar _ (high_lt hcode hcontrol)
    obtain ⟨-, -, -, hlow⟩ := hexValue_digitChar _ hlow
    simp only [cons_append, nil_append]
    rw [numeralsFrom_escape, numeralsFrom_string hhigh.2.1 hhigh.1,
      numeralsFrom_string hlow.2.1 hlow.1]
  | plain hc hquote hslash => exact numeralsFrom_string hquote.1 hslash

/-- A string is passed over. -/
theorem numeralsFrom_quote (text : String) (s : List Char) :
    numeralsFrom .nothing ((quote text).toList ++ s) = numeralsFrom .nothing s := by
  rw [toList_quote, cons_append]
  change numeralsFrom .string _ = _
  induction text.toList with
  | nil => rfl
  | cons c cs ih =>
    rw [quoteBody, flatMap_cons, ← quoteBody, append_assoc, append_assoc,
      (spells_escapeChar c).numeralsFrom_append, ← append_assoc, ih]

/-! ### The shape of a number -/

theorem exists_of_startsDigit (h : startsDigit s) :
    ∃ d f, s.filter (fun c => !isMark c) = d :: f ∧ isDigit d := by
  rw [startsDigit, ← head?_filter] at h
  cases hfilter : s.filter fun c => !isMark c with
  | nil =>
    rw [hfilter] at h
    cases h
  | cons d f =>
    rw [hfilter] at h
    exact ⟨d, f, rfl, h⟩

theorem isNumeralRest_cons {d : Char} {f : List Char} (hd : (isDigit d || d == '_')) :
    isNumeralRest (d :: f) = isNumeralRest f := by
  have hdot : d ≠ '.' := by
    rintro rfl
    exact absurd hd (by decide)
  rw [isNumeralRest.eq_3 d f fun _ _ hd _ => hdot hd, hd, Bool.true_and]

theorem isNumeralRest_filter (h : goesOnAll s) :
    isNumeralRest (s.filter fun c => !isMark c) := by
  induction s with
  | nil => rfl
  | cons c s ih =>
    rw [goesOnAll, Bool.and_eq_true] at h
    have hlater := ih h.2
    by_cases hmark : isMark c
    · rw [filter_cons_of_neg (by simp [hmark])]
      exact hlater
    · rw [filter_cons_of_pos (by simpa using hmark)]
      by_cases hdigit : (isDigit c || c == '_') = true
      · rw [isNumeralRest_cons hdigit]
        exact hlater
      · -- a dot, with a digit behind it
        have hgoes := h.1
        rw [goesOn, Bool.or_assoc, Bool.or_eq_true] at hgoes
        have hdot := hgoes.resolve_left hdigit
        rw [Bool.or_eq_true, Bool.and_eq_true] at hdot
        obtain ⟨hc, hstarts⟩ := hdot.resolve_left hmark
        obtain ⟨d, f, hfilter, hd⟩ := exists_of_startsDigit hstarts
        rw [beq_iff_eq] at hc
        rw [hfilter] at hlater ⊢
        rw [isNumeralRest_cons (by rw [hd]; rfl)] at hlater
        rw [hc, isNumeralRest, hd, hlater]
        rfl

theorem not_isMark {limit : Char} (h : c ≤ limit) (hlimit : limit.toNat < 0x80) :
    isMark c = false := by
  have hle : c.toNat ≤ limit.toNat := h
  rw [isMark, decide_eq_false_iff_not]
  omega

theorem not_isMark_of_isDigit (h : isDigit c) : isMark c = false :=
  not_isMark (of_decide_eq_true (Bool.and_eq_true_iff.mp h).2) (by decide)

theorem not_isMark_of_isNameStart (h : isNameStart c) : isMark c = false := by
  simp only [isNameStart, Bool.or_eq_true, Bool.and_eq_true, decide_eq_true_eq, beq_iff_eq] at h
  rcases h with ((h | h) | rfl) | rfl
  · exact not_isMark h.2 (by decide)
  · exact not_isMark h.2 (by decide)
  · rfl
  · rfl

theorem isNumeral_filter (h : isNumberText digits) :
    isNumeral (String.ofList (digits.toList.filter fun c => !isMark c)) := by
  obtain ⟨c, t, hdigits, hdigit, hgoes⟩ := isNumberText_cases h
  have hmark := not_isMark_of_isDigit hdigit
  rw [hdigits, filter_cons_of_pos (by simp [hmark]), isNumeral, String.toList_ofList]
  dsimp only
  rw [hdigit, isNumeralRest_filter hgoes]
  rfl

end Walk

/-! ## Texts without numerals -/

/-- The text starts with a character that ends a word and a numeral, and that is no dot. -/
def startsApart (s : List Char) : Bool := s.head?.any fun c => !isWordPart c && c != '.'

/-- A text that shows no numeral, whatever comes behind it. -/
def Silent (t : String) : Prop :=
  ∀ s, numeralsFrom .nothing (t.toList ++ s) = numeralsFrom .nothing s

theorem isClear_of_startsApart {s : List Char} (h : startsApart s) :
    isClear s ∧ s.head? ≠ some '.' := by
  cases s with
  | nil => cases h
  | cons c s =>
    have hc : (!isWordPart c && c != '.') := h
    rw [Bool.and_eq_true, bne_iff_ne] at hc
    constructor
    · rw [isClear, hc.1, beq_eq_false_iff_ne.mpr hc.2]
      rfl
    · intro hdot
      exact hc.2 (Option.some.inj hdot)

theorem startsApart_append {t : List Char} (h : startsApart t) (s : List Char) :
    startsApart (t ++ s) := by
  cases t with
  | nil => cases h
  | cons c t => exact h

theorem isNameText_of_isName {name : String} (h : isName name) : isNameText name := by
  obtain ⟨c, t, hname, hstart, hparts⟩ := Reader.isName_cases h
  rw [isNameText, hname, Bool.and_eq_true, all_eq_true]
  refine ⟨hstart, fun d hd => ?_⟩
  have hpart := all_eq_true.mp hparts d hd
  rw [isWordPart]
  exact Bool.or_eq_true_iff.mpr (.inl hpart)

namespace Silent

variable {t u name : String}

theorem append (ht : Silent t) (hu : Silent u) : Silent (t ++ u) := by
  intro s
  rw [String.toList_append, append_assoc, ht, hu]

theorem quoted (text : String) : Silent (quote text) := numeralsFrom_quote text

theorem named (hname : isNameText name) (ht : Silent t)
    (hapart : startsApart t.toList) : Silent (name ++ t) := by
  intro s
  have hclear := (isClear_of_startsApart (startsApart_append hapart s)).1
  rw [String.toList_append, append_assoc, numeralsFrom_name hname hclear, ht]

theorem property (key : String) : Silent (propertyName key ++ ": ") := by
  have hcolon : Silent ": " := fun _ => rfl
  by_cases hkey : isName key
  · rw [propertyName, if_pos hkey]
    exact named (isNameText_of_isName hkey) hcolon rfl
  · rw [propertyName, if_neg hkey]
    exact (quoted key).append hcolon

theorem params {params : List (String × Option Expr)} (h : paramsSpelled params) :
    Silent (", ".intercalate (params.map (·.1)) ++ ") \x7b") := by
  have hclose : Silent ") \x7b" := fun _ => rfl
  induction params with
  | nil => exact hclose
  | cons p params ih =>
    rw [paramsSpelled, all_cons, Bool.and_eq_true] at h
    cases params with
    | nil =>
      rw [map_cons, map_nil, String.intercalate_singleton]
      exact named h.1 hclose rfl
    | cons q params =>
      have hcomma : Silent ", " := fun _ => rfl
      have hlater := hcomma.append (ih h.2)
      rw [map_cons, map_cons, String.intercalate_cons_cons, String.append_assoc,
        String.append_assoc]
      refine named h.1 hlater ?_
      rw [String.toList_append]
      rfl

/-- The name of a function, in front of its parameters. -/
theorem signature {params : List (String × Option Expr)} (hname : isNameText name)
    (h : paramsSpelled params) :
    Silent (name ++ ("(" ++ (", ".intercalate (params.map (·.1)) ++ ") \x7b"))) := by
  have hopen : Silent "(" := fun _ => rfl
  refine named hname (hopen.append (.params h)) ?_
  rw [String.toList_append]
  rfl

theorem header {params : List (String × Option Expr)}
    (hname : (name.isEmpty || isNameText name)) (h : paramsSpelled params) :
    Silent (header name params) := by
  have hword : isNameText "function" := by decide
  rw [Script.header, String.append_assoc, String.append_assoc, String.append_assoc]
  by_cases hempty : name.isEmpty
  · rw [if_pos hempty, String.empty_append]
    exact signature hword h
  · have hspelled := (Bool.or_eq_true_iff.mp hname).resolve_left hempty
    have hspace : Silent " " := fun _ => rfl
    rw [if_neg hempty, String.append_assoc]
    refine named hword (hspace.append (signature hspelled h)) ?_
    rw [String.toList_append]
    rfl

end Silent

/-! ## Pieces of a script -/

/-- A numeral for a number of the tree. -/
structure Shown (number : String × Bool) (numeral : Numeral) : Prop where
  text : numeral.text = number.1.toList
  shape : numeral.isShaped = true
  apart : number.2 = false → numeral.after.head? ≠ some '.'

/-- What may stand behind an expression: nothing that a word or a numeral goes on with, and a dot
only behind the object of an attribute. -/
def Follows (attributed : Bool) (s : List Char) : Prop :=
  isClear s = true ∧ (attributed = false → s.head? ≠ some '.')

/-- In front of any text of a kind, pieces show these numbers and leave the rest to the text. -/
def Shows (width : Nat) (K : List Char → Prop) (ps : List Piece) (numbers : List (String × Bool)) :
    Prop :=
  ∀ s, K s → ∃ front, numeralsFrom .nothing (layout width ps ++ s) =
    front ++ numeralsFrom .nothing s ∧ List.Forall₂ Shown numbers front

section Pieces

variable {width : Nat} {K K' : List Char → Prop} {ps qs : List Piece}
  {numbers others : List (String × Bool)} {x : Expr}

theorem follows_of_startsApart {s : List Char} (h : startsApart s) (attributed : Bool) :
    Follows attributed s :=
  (isClear_of_startsApart h).imp id fun hdot _ => hdot

theorem follows_attribute {name : String} (h : isNameText name) (s : List Char) :
    Follows true ('.' :: (name.toList ++ s)) := by
  obtain ⟨c, t, hname, hstart, -⟩ := isNameText_cases h
  refine ⟨?_, Bool.noConfusion⟩
  have hdigit := (Reader.isNameStart_ne hstart).2.2
  have hmark := not_isMark_of_isNameStart hstart
  have hnone : startsDigit (c :: (t ++ s)) = false := by
    rw [startsDigit, find?_cons_of_pos (by simp [hmark]), Option.any_some, hdigit]
  rw [hname, cons_append, isClear, hnone]
  rfl

namespace Shows

theorem nil : Shows width K [] [] := fun _ _ => ⟨[], rfl, .nil⟩

theorem append (h : Shows width K ps numbers) (h' : Shows width K' qs others)
    (hK : ∀ s, K' s → K (layout width qs ++ s)) :
    Shows width K' (ps ++ qs) (numbers ++ others) := by
  intro s hs
  obtain ⟨front, hfront, hnumbers⟩ := h _ (hK s hs)
  obtain ⟨back, hback, hothers⟩ := h' s hs
  refine ⟨front ++ back, ?_, rel_append hnumbers hothers⟩
  rw [Layout.append, append_assoc, hfront, hback, append_assoc]

variable {t : String} {attributed : Bool}

/-- A text without numerals in front. -/
theorem text (h : Shows width K ps numbers) (ht : Silent t) :
    Shows width K (.text t :: ps) numbers := by
  intro s hs
  rw [Layout.text, append_assoc, ht]
  exact h s hs

theorem closing (ht : Silent t) : Shows width K [.text t] [] := nil.text ht

theorem newline (h : Shows width K ps numbers) : Shows width K (.newline :: ps) numbers := by
  intro s hs
  rw [Layout.newline]
  exact h s hs

theorem margin (h : Shows width K ps numbers) (depth : Nat) :
    Shows width K (.margin depth :: ps) numbers := by
  intro s hs
  have hspaces : ∀ n t, numeralsFrom .nothing (replicate n ' ' ++ t) =
      numeralsFrom .nothing t := by
    intro n t
    induction n with
    | zero => rfl
    | succ n ih => exact ih
  rw [Layout.margin, append_assoc, hspaces]
  exact h s hs

/-- What stands behind an expression starts with a text apart from it. -/
theorem then_text (h : Shows width (Follows attributed) ps numbers)
    (hapart : startsApart t.toList) (h' : Shows width K (.text t :: qs) others) :
    Shows width K (ps ++ .text t :: qs) (numbers ++ others) := by
  refine h.append h' fun s _ => follows_of_startsApart ?_ attributed
  rw [Layout.text, append_assoc]
  exact startsApart_append hapart _

theorem name {name : String} (h : isNameText name) (attributed : Bool) :
    Shows width (Follows attributed) [.text name] [] := by
  intro s hs
  refine ⟨[], ?_, .nil⟩
  rw [Layout.text, Layout.nil, append_nil]
  exact numeralsFrom_name h hs.1

theorem number {digits : String} (h : isNumberText digits) (attributed : Bool) :
    Shows width (Follows attributed) [.text digits] [(digits, attributed)] := by
  intro s hs
  refine ⟨[⟨digits.toList, s⟩], ?_, .cons ⟨rfl, isNumeral_filter h, hs.2⟩ .nil⟩
  rw [Layout.text, Layout.nil, append_nil, numeralsFrom_number h hs.1]
  rfl

/-- Nothing behind an expression shows a numeral. -/
theorem ended (h : Shows width (Follows attributed) ps numbers)
    (hapart : startsApart t.toList) (h' : Shows width K (.text t :: qs) []) :
    Shows width K (ps ++ .text t :: qs) numbers := by
  have hboth := h.then_text hapart h'
  rw [append_nil] at hboth
  exact hboth

theorem parenthesized (h : Shows width (Follows attributed) ps numbers) :
    Shows width K (enclose true ps) numbers := by
  have hopen : Silent "(" := fun _ => rfl
  have hclose : Silent ")" := fun _ => rfl
  exact (h.ended rfl (closing hclose)).text hopen

theorem enclosed (h : Shows width (Follows attributed) ps numbers) (condition : Bool) :
    Shows width (Follows attributed) (enclose condition ps) numbers := by
  cases condition with
  | false => exact h
  | true => exact h.parenthesized

/-- What binds looser than a suffix is put in parentheses in front of a dot. -/
theorem looser {level rank : Nat} (h : Shows width (Follows false) ps numbers)
    (hlevel : level < Level.call.rank) (hrank : attributed → Level.call.rank ≤ rank) :
    Shows width (Follows attributed) (enclose (level < rank) ps) numbers := by
  cases attributed with
  | false => exact h.enclosed _
  | true =>
    have htight : level < rank := Nat.lt_of_lt_of_le hlevel (hrank rfl)
    rw [decide_eq_true htight]
    exact h.parenthesized

/-- Lines between an opening and a closing text. -/
theorem lines {u : String} (h : Shows width (fun _ => True) ps numbers) (ht : Silent t)
    (depth : Nat) (h' : Shows width K (.text u :: qs) []) :
    Shows width K (.text t :: .newline :: ps ++ .margin depth :: .text u :: qs) numbers := by
  have hboth := h.append (h'.margin depth) fun _ _ => trivial
  rw [append_nil] at hboth
  exact hboth.newline.text ht

end Shows

/-! ### Expressions -/

/-- An expression shows its numbers at every place, where the object of an attribute is at a place
that asks for the rank of a suffix. -/
def Expr.Shows (width : Nat) (e : Expr) : Prop :=
  ∀ depth rank attributed, (attributed = true → Level.call.rank ≤ rank) →
    Script.Shows width (Follows attributed) (e.pieces depth rank) (e.numbers attributed)

theorem Expr.Shows.apart (h : x.Shows width) (depth rank : Nat) :
    Script.Shows width (Follows false) (x.pieces depth rank) (x.numbers false) :=
  h depth rank false Bool.noConfusion

theorem Expr.Shows.object (h : x.Shows width) (depth : Nat) :
    Script.Shows width (Follows true) (x.pieces depth Level.call.rank) (x.numbers true) :=
  h depth Level.call.rank true fun _ => Nat.le_refl _

/-- A statement shows its numbers at every depth, whatever comes behind it. -/
def Stmt.Shows (width : Nat) (st : Stmt) : Prop :=
  ∀ depth K, Script.Shows width K (st.pieces depth) st.numbers

theorem propertyPieces_shows {properties : List (String × Expr)}
    (h : ∀ p ∈ properties, p.2.Shows width) (depth : Nat) :
    Shows width K (propertyPieces depth properties) (propertyNumbers properties) := by
  induction properties with
  | nil => exact .nil
  | cons p properties ih =>
    obtain ⟨hp, hrest⟩ := forall_mem_cons.mp h
    have hcomma : Silent "," := fun _ => rfl
    have hlater := ((ih hrest).newline).text hcomma
    rw [propertyPieces, propertyNumbers]
    exact (((hp.apart depth _).then_text rfl hlater).text (.property p.1)).margin depth

theorem itemPieces_shows {items : List Expr} (h : ∀ x ∈ items, x.Shows width) (depth : Nat) :
    Shows width K (itemPieces depth items) (itemNumbers items) := by
  induction items with
  | nil => exact .nil
  | cons x items ih =>
    obtain ⟨hx, hrest⟩ := forall_mem_cons.mp h
    have hcomma : Silent "," := fun _ => rfl
    have hlater := ((ih hrest).newline).text hcomma
    rw [itemPieces, itemNumbers]
    exact ((hx.apart depth _).then_text rfl hlater).margin depth

theorem argumentPieces_shows {arguments : List Expr} (h : ∀ x ∈ arguments, x.Shows width)
    (depth : Nat) :
    Shows width (Follows false) (argumentPieces depth arguments) (itemNumbers arguments) := by
  induction arguments with
  | nil => exact .nil
  | cons x arguments ih =>
    obtain ⟨hx, hrest⟩ := forall_mem_cons.mp h
    cases arguments with
    | nil =>
      rw [argumentPieces, itemNumbers, itemNumbers, append_nil]
      exact hx.apart depth _
    | cons y arguments =>
      have hcomma : Silent ", " := fun _ => rfl
      rw [argumentPieces, itemNumbers]
      · exact (hx.apart depth _).then_text rfl ((ih hrest).text hcomma)
      · exact cons_ne_nil y arguments

theorem bodyPieces_shows {body : List Stmt} (h : ∀ st ∈ body, st.Shows width) (depth : Nat)
    (K : List Char → Prop) : Shows width K (bodyPieces depth body) (bodyNumbers body) := by
  induction body with
  | nil => exact .nil
  | cons st body ih =>
    obtain ⟨hst, hrest⟩ := forall_mem_cons.mp h
    rw [bodyPieces, bodyNumbers]
    exact (hst depth fun _ => True).append (ih hrest) fun _ _ => trivial

namespace Expr.Shows

variable {x y z : Expr} {name : String}

theorem of_string (text : String) : (Expr.string text).Shows width :=
  fun _ _ _ _ => .closing (.quoted text)

theorem of_number {digits : String} (h : isNumberText digits) :
    (Expr.number digits).Shows width :=
  fun _ _ attributed _ => .number h attributed

theorem of_name (h : isNameText name) : (Expr.name name).Shows width :=
  fun _ _ attributed _ => .name h attributed

theorem of_missing : Expr.missing.Shows width := fun _ _ _ _ => .nil

theorem of_object {properties : List (String × Expr)} (h : ∀ p ∈ properties, p.2.Shows width) :
    (Expr.object properties).Shows width := by
  intro depth rank attributed _
  have hopen : Silent "\x7b" := fun _ => rfl
  have hclose : Silent "\x7d" := fun _ => rfl
  rcases properties with _ | ⟨⟨key, value⟩, _ | ⟨q, rest⟩⟩
  · exact .closing fun _ => rfl
  · rw [Expr.pieces, Expr.numbers, propertyNumbers, propertyNumbers, append_nil,
      String.append_assoc]
    have hvalue := (h _ mem_cons_self).apart depth Level.assign.rank
    exact (hvalue.ended rfl (.closing hclose)).text (hopen.append (.property key))
  · exact (propertyPieces_shows h (depth + 1)).lines hopen depth (.closing hclose)

theorem of_list {items : List Expr} (h : ∀ x ∈ items, x.Shows width) :
    (Expr.list items).Shows width := by
  intro depth rank attributed _
  have hopen : Silent "[" := fun _ => rfl
  have hclose : Silent "]" := fun _ => rfl
  rcases items with _ | ⟨x, _ | ⟨y, rest⟩⟩
  · exact .closing fun _ => rfl
  · rw [Expr.pieces, Expr.numbers, itemNumbers, itemNumbers, append_nil]
    have hx := (h _ mem_cons_self).apart depth Level.assign.rank
    exact (hx.ended rfl (.closing hclose)).text hopen
  · exact (itemPieces_shows h (depth + 1)).lines hopen depth (.closing hclose)

theorem of_attribute (hx : x.Shows width) (hname : isNameText name) :
    (Expr.attribute x name).Shows width := by
  intro depth rank attributed _
  have hdot : Silent "." := fun _ => rfl
  have hlast : Script.Shows width (Follows attributed) [.text name] [] := .name hname attributed
  have hboth := (hx.object depth).append (hlast.text hdot) fun s _ => by
    rw [Layout.text, Layout.text, Layout.nil, append_nil, append_assoc]
    exact follows_attribute hname s
  rw [append_nil] at hboth
  exact hboth.enclosed _

theorem of_item (hx : x.Shows width) (hy : y.Shows width) : (Expr.item x y).Shows width := by
  intro depth rank attributed _
  have hopen : Silent "[" := fun _ => rfl
  have hclose : Silent "]" := fun _ => rfl
  have hindex := (hy.apart depth Level.lowest.rank).text hopen
  have hboth := (hx.apart depth Level.call.rank).then_text rfl hindex
  exact (hboth.ended rfl (.closing hclose)).enclosed _

theorem of_call {arguments : List Expr} (hx : x.Shows width)
    (h : ∀ y ∈ arguments, y.Shows width) : (Expr.call x arguments).Shows width := by
  intro depth rank attributed _
  have hopen : Silent "(" := fun _ => rfl
  have hclose : Silent ")" := fun _ => rfl
  have harguments := (argumentPieces_shows h depth).text hopen
  have hboth := (hx.apart depth Level.call.rank).then_text rfl harguments
  exact (hboth.ended rfl (.closing hclose)).enclosed _

theorem of_new (hx : x.Shows width) : (Expr.new x).Shows width := by
  intro depth rank attributed hrank
  have hnew : Silent "new " := fun _ => rfl
  exact ((hx.apart depth Level.new.rank).text hnew).looser (by decide) hrank

theorem of_not (hx : x.Shows width) : (Expr.not x).Shows width := by
  intro depth rank attributed hrank
  have hnot : Silent "!" := fun _ => rfl
  exact ((hx.apart depth Level.unary.rank).text hnot).looser (by decide) hrank

/-- Two operands and an operator between them. -/
theorem joined {op : String} (hx : x.Shows width) (hy : y.Shows width) (hop : Silent op)
    (hapart : startsApart op.toList) (depth left right : Nat) :
    Script.Shows width (Follows false)
      (x.pieces depth left ++ .text op :: y.pieces depth right)
      (x.numbers false ++ y.numbers false) :=
  (hx.apart depth left).then_text hapart ((hy.apart depth right).text hop)

theorem of_and (hx : x.Shows width) (hy : y.Shows width) : (Expr.and x y).Shows width :=
  fun depth _ _ hrank =>
    (joined hx hy (fun _ => rfl) rfl depth _ _).looser (by decide) hrank

theorem of_or (hx : x.Shows width) (hy : y.Shows width) : (Expr.or x y).Shows width :=
  fun depth _ _ hrank =>
    (joined hx hy (fun _ => rfl) rfl depth _ _).looser (by decide) hrank

theorem of_operation (op : Operator) (hx : x.Shows width) (hy : y.Shows width) :
    (Expr.operation op x y).Shows width := by
  intro depth rank attributed hrank
  have hlevel : op.level.rank < Level.call.rank := by
    cases op with
    | arith op => cases op <;> decide
    | relation op => cases op <;> decide
    | otherArith | otherRelation => decide
  have hsymbol : Silent (" " ++ op.symbol ++ " ") := by
    cases op with
    | arith op => cases op <;> exact fun _ => rfl
    | relation op => cases op <;> exact fun _ => rfl
    | otherArith | otherRelation => exact fun _ => rfl
  have hapart : startsApart (" " ++ op.symbol ++ " ").toList := by
    rw [String.toList_append, String.toList_append]
    rfl
  exact (joined hx hy hsymbol hapart depth _ _).looser hlevel hrank

theorem of_ternary (hx : x.Shows width) (hy : y.Shows width) (hz : z.Shows width) :
    (Expr.ternary x y z).Shows width := by
  intro depth rank attributed _
  have hopen : Silent "((" := fun _ => rfl
  have hchoose : Silent ")?(" := fun _ => rfl
  have helse : Silent "):(" := fun _ => rfl
  have hclose : Silent "))" := fun _ => rfl
  have hcondition := (hx.apart depth Level.lowest.rank).text hopen
  have hchosen := hcondition.then_text rfl ((hy.apart depth Level.lowest.rank).text hchoose)
  have hall := hchosen.then_text rfl ((hz.apart depth Level.lowest.rank).text helse)
  rw [append_assoc (x.numbers false)] at hall
  exact hall.ended rfl (.closing hclose)

theorem of_function {params : List (String × Option Expr)} {body : List Stmt}
    (hname : (name.isEmpty || isNameText name)) (hparams : paramsSpelled params)
    (hbody : ∀ st ∈ body, st.Shows width) : (Expr.function name params body).Shows width := by
  intro depth rank attributed _
  have hheader : Silent (header name params) := .header hname hparams
  have hclose : Silent "\x7d" := fun _ => rfl
  cases body with
  | nil => exact (Shows.closing hclose).text hheader
  | cons st body =>
    exact (bodyPieces_shows hbody (depth + 1) _).lines hheader depth (.closing hclose)

theorem of_assign (hx : x.Shows width) (hname : isNameText name) (hy : y.Shows width) :
    (Expr.assign x name y).Shows width := by
  intro depth rank attributed hrank
  have hdot : Silent "." := fun _ => rfl
  have hequals : Silent " = " := fun _ => rfl
  have htarget : Silent ("." ++ name ++ " = ") := by
    rw [String.append_assoc]
    exact hdot.append (.named hname hequals rfl)
  have hvalue := (hy.apart depth Level.assign.rank).text htarget
  refine ((hx.object depth).append hvalue fun s _ => ?_).looser (by decide) hrank
  rw [Layout.text, String.append_assoc, String.toList_append, String.toList_append,
    append_assoc, append_assoc, append_assoc]
  exact follows_attribute hname _

end Expr.Shows

namespace Stmt.Shows

variable {x : Expr} {name : String}

theorem of_missing : Stmt.missing.Shows width := fun _ _ => .nil

/-- The end of a statement's line. -/
theorem line_end : Script.Shows width K [.text ";", .newline] [] := by
  have hclose : Silent ";" := fun _ => rfl
  exact Script.Shows.nil.newline.text hclose

theorem of_expr (hx : x.Shows width) : (Stmt.expr x).Shows width := fun depth _ =>
  (((hx.apart depth _).enclosed _).ended rfl line_end).margin depth

theorem of_ret (hx : x.Shows width) : (Stmt.ret x).Shows width := by
  intro depth K
  have hreturn : Silent "return " := fun _ => rfl
  exact (((hx.apart depth _).ended rfl line_end).text hreturn).margin depth

theorem of_var (hname : isNameText name) (hx : x.Shows width) :
    (Stmt.var name x).Shows width := by
  intro depth K
  have hvar : Silent "var " := fun _ => rfl
  have hequals : Silent " = " := fun _ => rfl
  have hdeclared : Silent ("var " ++ name ++ " = ") := by
    rw [String.append_assoc]
    exact hvar.append (.named hname hequals rfl)
  exact (((hx.apart depth _).ended rfl line_end).text hdeclared).margin depth

theorem of_function {params : List (String × Option Expr)} {body : List Stmt}
    (hname : isNameText name) (hparams : paramsSpelled params)
    (hbody : ∀ st ∈ body, st.Shows width) : (Stmt.function name params body).Shows width := by
  intro depth K
  have hclose : Silent "\x7d" := fun _ => rfl
  have hheader : Silent ("function " ++ name ++ "(" ++ ", ".intercalate (params.map (·.1)) ++
      ") \x7b") := by
    have hfunction : Silent "function " := fun _ => rfl
    rw [String.append_assoc, String.append_assoc, String.append_assoc]
    exact hfunction.append (.signature hname hparams)
  have hend : Script.Shows width K [.text "\x7d", .newline] [] :=
    Script.Shows.nil.newline.text hclose
  exact ((bodyPieces_shows hbody (depth + 1) _).lines hheader depth hend).margin depth

end Stmt.Shows

mutual

/-- Every spelled expression shows its numbers. -/
theorem expr_shows : ∀ e : Expr, e.isSpelled → e.Shows width
  | .string text, _ => .of_string text
  | .number _, h => .of_number h
  | .name _, h => .of_name h
  | .object ps, h => .of_object (properties_show ps h)
  | .list xs, h => .of_list (items_show xs h)
  | .attribute x name, h => by
    rw [Expr.isSpelled, and_eq_true] at h
    exact .of_attribute (expr_shows x h.1) h.2
  | .item x y, h => by
    rw [Expr.isSpelled, and_eq_true] at h
    exact .of_item (expr_shows x h.1) (expr_shows y h.2)
  | .call x xs, h => by
    rw [Expr.isSpelled, and_eq_true] at h
    exact .of_call (expr_shows x h.1) (items_show xs h.2)
  | .new x, h => .of_new (expr_shows x h)
  | .not x, h => .of_not (expr_shows x h)
  | .and x y, h => by
    rw [Expr.isSpelled, and_eq_true] at h
    exact .of_and (expr_shows x h.1) (expr_shows y h.2)
  | .or x y, h => by
    rw [Expr.isSpelled, and_eq_true] at h
    exact .of_or (expr_shows x h.1) (expr_shows y h.2)
  | .operation op x y, h => by
    rw [Expr.isSpelled, and_eq_true] at h
    exact .of_operation op (expr_shows x h.1) (expr_shows y h.2)
  | .function name params body, h => by
    rw [Expr.isSpelled, and_eq_true, and_eq_true] at h
    exact .of_function h.1.1 h.1.2 (body_shows body h.2)
  | .assign x name y, h => by
    rw [Expr.isSpelled, and_eq_true, and_eq_true] at h
    exact .of_assign (expr_shows x h.1.1) h.1.2 (expr_shows y h.2)
  | .ternary x y z, h => by
    rw [Expr.isSpelled, and_eq_true, and_eq_true] at h
    exact .of_ternary (expr_shows x h.1.1) (expr_shows y h.1.2) (expr_shows z h.2)
  | .missing, _ => .of_missing

theorem properties_show : ∀ ps : List (String × Expr), propertiesSpelled ps →
    ∀ p ∈ ps, p.2.Shows width
  | [], _ => forall_mem_nil _
  | (_, x) :: ps, h => by
    rw [propertiesSpelled, and_eq_true] at h
    exact forall_mem_cons.mpr ⟨expr_shows x h.1, properties_show ps h.2⟩

theorem items_show : ∀ xs : List Expr, itemsSpelled xs → ∀ x ∈ xs, x.Shows width
  | [], _ => forall_mem_nil _
  | x :: xs, h => by
    rw [itemsSpelled, and_eq_true] at h
    exact forall_mem_cons.mpr ⟨expr_shows x h.1, items_show xs h.2⟩

theorem stmt_shows : ∀ st : Stmt, st.isSpelled → st.Shows width
  | .expr x, h => .of_expr (expr_shows x h)
  | .ret x, h => .of_ret (expr_shows x h)
  | .var name x, h => by
    rw [Stmt.isSpelled, and_eq_true] at h
    exact .of_var h.1 (expr_shows x h.2)
  | .function name params body, h => by
    rw [Stmt.isSpelled, and_eq_true, and_eq_true] at h
    exact .of_function h.1.1 h.1.2 (body_shows body h.2)
  | .missing, _ => .of_missing

theorem body_shows : ∀ body : List Stmt, bodySpelled body → ∀ st ∈ body, st.Shows width
  | [], _ => forall_mem_nil _
  | st :: body, h => by
    rw [bodySpelled, and_eq_true] at h
    exact forall_mem_cons.mpr ⟨stmt_shows st h.1, body_shows body h.2⟩

end

end Pieces

/-- The numerals of the text of code are the numbers of the code, in their order. -/
theorem Code.numerals_text (width : Int) {code : Code} (h : bodySpelled code) :
    List.Forall₂ Shown (bodyNumbers code) (numerals (code.text width)) := by
  obtain ⟨front, hfront, hnumbers⟩ :=
    bodyPieces_shows (body_shows code h) 0 (fun _ => True) [] trivial
  rw [append_nil, numeralsFrom, append_nil] at hfront
  rw [numerals, Code.toList_text, hfront]
  exact hnumbers

end Stencil.Script
