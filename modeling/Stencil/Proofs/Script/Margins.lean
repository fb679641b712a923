import Stencil.Proofs.Script.Places
import Stencil.Proofs.Text.Words

/-!
# Lines and margins

The indent width changes nothing but margins. Every line of a printed script has a depth, and the line
is so many widths of spaces and a text that is the same for all widths: a margin stands only at the
start of a line, and line feeds only between lines.
-/
namespace Stencil.Script

open List

mutual

/-- The names and numbers of an expression that are printed as they stand. -/
def Expr.words : Expr → List String
  | .string _ | .missing => []
  | .number word | .name word => [word]
  | .object properties => propertyWords properties
  | .list items => itemWords items
  | .attribute object name => object.words ++ [name]
  | .item object index => object.words ++ index.words
  | .call function arguments => function.words ++ itemWords arguments
  | .new operand | .not operand => operand.words
  | .and left right | .or left right | .operation _ left right => left.words ++ right.words
  | .function name params body => name :: params.map (·.1) ++ bodyWords body
  | .assign object name value => object.words ++ name :: value.words
  | .ternary condition chosen otherwise => condition.words ++ (chosen.words ++ otherwise.words)

def propertyWords : List (String × Expr) → List String
  | [] => []
  | (_, value) :: rest => value.words ++ propertyWords rest

def itemWords : List Expr → List String
  | [] => []
  | item :: rest => item.words ++ itemWords rest

def Stmt.words : Stmt → List String
  | .expr value | .ret value => value.words
  | .var name value => name :: value.words
  | .function name params body => name :: params.map (·.1) ++ bodyWords body
  | .missing => []

def bodyWords : List Stmt → List String
  | [] => []
  | s :: rest => s.words ++ bodyWords rest

end

/-! ## Texts without line feeds -/

def isOneLine (text : String) : Bool := !text.toList.contains '\n'

section OneLine

variable {s t name : String} {params : List (String × Option Expr)}

theorem isOneLine_append : isOneLine (s ++ t) = (isOneLine s && isOneLine t) := by
  rw [isOneLine, String.toList_append, contains_append, Bool.not_or]
  rfl

theorem isOneLine_quote (text : String) : isOneLine (quote text) := by
  rw [isOneLine, Bool.not_eq_true', ← Bool.not_eq_true, contains_iff_mem, toList_quote]
  intro hmem
  simp only [mem_cons, mem_append, not_mem_nil, or_false] at hmem
  rcases hmem with heq | hbody | heq
  · exact absurd heq (by decide)
  · exact absurd (printable_quoteBody _ _ hbody) (by decide)
  · exact absurd heq (by decide)

theorem isOneLine_propertyName (key : String) : isOneLine (propertyName key) := by
  rw [propertyName]
  split
  · next hname =>
    obtain ⟨c, t, hkey, -, hparts⟩ := Reader.isName_cases hname
    rw [isOneLine, hkey, Bool.not_eq_true', ← Bool.not_eq_true, contains_iff_mem]
    intro hmem
    exact absurd (all_eq_true.mp hparts _ hmem) (by decide)
  · exact isOneLine_quote key

theorem isOneLine_params {params : List String} (h : ∀ word ∈ params, isOneLine word) :
    isOneLine (", ".intercalate params) := by
  induction params with
  | nil => rfl
  | cons word params ih =>
    obtain ⟨hword, hrest⟩ := forall_mem_cons.mp h
    cases params with
    | nil => rwa [String.intercalate_singleton]
    | cons other params =>
      rw [String.intercalate_cons_cons, isOneLine_append, isOneLine_append, hword, ih hrest]
      rfl

theorem isOneLine_signature (hname : isOneLine name)
    (h : ∀ word ∈ params.map (·.1), isOneLine word) :
    isOneLine (name ++ "(" ++ ", ".intercalate (params.map (·.1)) ++ ") \x7b") = true := by
  rw [isOneLine_append, isOneLine_append, isOneLine_append, hname, isOneLine_params h]
  rfl

theorem isOneLine_header (hname : isOneLine name) (h : ∀ word ∈ params.map (·.1), isOneLine word) :
    isOneLine (header name params) := by
  have hfront : isOneLine ("function" ++ if name.isEmpty then "" else " " ++ name) := by
    rw [isOneLine_append]
    split
    · rfl
    · rw [isOneLine_append, hname]
      rfl
  exact isOneLine_signature hfront h

end OneLine

/-! ## Where margins stand -/

/-- Pieces that go on at the start of a line or within it, and end so. -/
inductive Lays : Bool → Bool → List Piece → Prop where
  | nil (start : Bool) : Lays start start []
  | text {start ends : Bool} {t : String} {ps : List Piece} (ht : isOneLine t = true)
      (h : Lays false ends ps) : Lays start ends (.text t :: ps)
  | newline {start ends : Bool} {ps : List Piece} (h : Lays true ends ps) :
      Lays start ends (.newline :: ps)
  | margin {ends : Bool} {ps : List Piece} (depth : Nat) (h : Lays false ends ps) :
      Lays true ends (.margin depth :: ps)

namespace Lays

variable {start middle ends : Bool} {ps qs : List Piece} {t : String}

theorem append (h : Lays start middle ps) (h' : Lays middle ends qs) :
    Lays start ends (ps ++ qs) := by
  induction h with
  | nil => exact h'
  | text ht _ ih => exact .text ht (ih h')
  | newline _ ih => exact .newline (ih h')
  | margin depth _ ih => exact .margin depth (ih h')

theorem single (ht : isOneLine t) : Lays start false [.text t] := .text ht (.nil _)

theorem enclosed (h : Lays false false ps) (condition : Bool) :
    Lays false false (enclose condition ps) := by
  cases condition with
  | false => exact h
  | true => exact .append (.text (by decide) h) (.single (by decide))

/-- Lines between an opening text and a closing one. -/
theorem block (ht : isOneLine t) (h : Lays true true ps) (depth : Nat) (h' : Lays false ends qs) :
    Lays start ends (.text t :: .newline :: ps ++ .margin depth :: qs) :=
  .append (.text ht (.newline h)) (.margin depth h')

theorem lineEnd : Lays false true [.text ";", .newline] := .text (by decide) (.newline (.nil _))

end Lays

/-! ## Pieces of a script -/

/-- No line feed in any of the words. -/
abbrev AllOneLine (words : List String) : Prop := ∀ word ∈ words, isOneLine word = true

theorem AllOneLine.function {name : String} {params : List (String × Option Expr)}
    {words : List String} (h : AllOneLine (name :: params.map (·.1) ++ words)) :
    isOneLine name ∧ AllOneLine (params.map (·.1)) ∧ AllOneLine words := by
  obtain ⟨hfront, hwords⟩ := forall_mem_append.mp h
  obtain ⟨hname, hparams⟩ := forall_mem_cons.mp hfront
  exact ⟨hname, hparams, hwords⟩

mutual

theorem Expr.lays (depth rank : Nat) : ∀ e : Expr, AllOneLine e.words →
    Lays false false (e.pieces depth rank)
  | .string text, _ => .single (isOneLine_quote text)
  | .number _, h => .single (h _ mem_cons_self)
  | .name _, h => .single (h _ mem_cons_self)
  | .object [], _ => .single (by decide)
  | .object [(key, value)], h => by
    have hkey : isOneLine ("\x7b" ++ propertyName key ++ ": ") := by
      rw [isOneLine_append, isOneLine_append, isOneLine_propertyName]
      rfl
    have hvalue := value.lays depth Level.assign.rank (forall_mem_append.mp h).1
    exact .append (.text hkey hvalue) (.single (by decide))
  | .object (p :: q :: rest), h =>
    .block (by decide) (propertyPieces_lays (depth + 1) (p :: q :: rest) h) depth
      (.single (by decide))
  | .list [], _ => .single (by decide)
  | .list [x], h => by
    have hitem := x.lays depth Level.assign.rank (forall_mem_append.mp h).1
    exact .append (.text (by decide) hitem) (.single (by decide))
  | .list (x :: y :: rest), h =>
    .block (by decide) (itemPieces_lays (depth + 1) (x :: y :: rest) h) depth (.single (by decide))
  | .attribute object name, h => by
    obtain ⟨hobject, hname⟩ := forall_mem_append.mp h
    have hname : isOneLine name := hname name mem_cons_self
    have hlast : Lays false false [.text ".", .text name] := .text (by decide) (.single hname)
    exact ((object.lays depth _ hobject).append hlast).enclosed _
  | .item object index, h => by
    obtain ⟨hobject, hindex⟩ := forall_mem_append.mp h
    exact (((object.lays depth _ hobject).append (.text (by decide)
      (index.lays depth _ hindex))).append (.single (by decide))).enclosed _
  | .call function arguments, h => by
    obtain ⟨hfunction, harguments⟩ := forall_mem_append.mp h
    exact (((function.lays depth _ hfunction).append (.text (by decide)
      (argumentPieces_lays depth _ harguments))).append (.single (by decide))).enclosed _
  | .new operand, h | .not operand, h =>
    (Lays.text (by decide) (operand.lays depth _ h)).enclosed _
  | .and left right, h | .or left right, h => by
    obtain ⟨hleft, hright⟩ := forall_mem_append.mp h
    exact ((left.lays depth _ hleft).append (.text (by decide) (right.lays depth _ hright))).enclosed _
  | .operation op left right, h => by
    obtain ⟨hleft, hright⟩ := forall_mem_append.mp h
    have hsymbol : isOneLine (" " ++ op.symbol ++ " ") := by
      cases op with
      | arith op => cases op <;> decide
      | relation op => cases op <;> decide
      | otherArith | otherRelation => decide
    exact ((left.lays depth _ hleft).append (.text hsymbol (right.lays depth _ hright))).enclosed _
  | .function name params [], h => by
    obtain ⟨hname, hparams, -⟩ := AllOneLine.function h
    exact .text (isOneLine_header hname hparams) (.single (by decide))
  | .function name params (first :: rest), h => by
    obtain ⟨hname, hparams, hbody⟩ := AllOneLine.function h
    exact .block (isOneLine_header hname hparams) (bodyPieces_lays (depth + 1) _ hbody) depth
      (.single (by decide))
  | .assign object name value, h => by
    obtain ⟨hobject, hlater⟩ := forall_mem_append.mp h
    obtain ⟨hname, hvalue⟩ := forall_mem_cons.mp hlater
    have htarget : isOneLine ("." ++ name ++ " = ") := by
      rw [isOneLine_append, isOneLine_append, hname]
      rfl
    exact ((object.lays depth _ hobject).append
      (.text htarget (value.lays depth _ hvalue))).enclosed _
  | .ternary condition chosen otherwise, h => by
    obtain ⟨hcondition, hlater⟩ := forall_mem_append.mp h
    obtain ⟨hchosen, hotherwise⟩ := forall_mem_append.mp hlater
    have hfirst := condition.lays depth Level.lowest.rank hcondition
    have hsecond := chosen.lays depth Level.lowest.rank hchosen
    have hthird := otherwise.lays depth Level.lowest.rank hotherwise
    exact (((Lays.text (by decide) hfirst).append (.text (by decide) hsecond)).append
      (.text (by decide) hthird)).append (.single (by decide))
  | .missing, _ => .nil _

theorem propertyPieces_lays (depth : Nat) : ∀ properties : List (String × Expr),
    AllOneLine (propertyWords properties) → Lays true true (propertyPieces depth properties)
  | [], _ => .nil _
  | (key, value) :: rest, h => by
    obtain ⟨hvalue, hrest⟩ := forall_mem_append.mp h
    have hkey : isOneLine (propertyName key ++ ": ") := by
      rw [isOneLine_append, isOneLine_propertyName]
      rfl
    exact .append (.margin depth (.text hkey (value.lays depth _ hvalue)))
      (.text (by decide) (.newline (propertyPieces_lays depth rest hrest)))

theorem itemPieces_lays (depth : Nat) : ∀ items : List Expr,
    AllOneLine (itemWords items) → Lays true true (itemPieces depth items)
  | [], _ => .nil _
  | x :: rest, h => by
    obtain ⟨hx, hrest⟩ := forall_mem_append.mp h
    exact .append (.margin depth (x.lays depth _ hx))
      (.text (by decide) (.newline (itemPieces_lays depth rest hrest)))

theorem argumentPieces_lays (depth : Nat) : ∀ arguments : List Expr,
    AllOneLine (itemWords arguments) → Lays false false (argumentPieces depth arguments)
  | [], _ => .nil _
  | [x], h => x.lays depth _ (forall_mem_append.mp h).1
  | x :: y :: rest, h => by
    obtain ⟨hx, hrest⟩ := forall_mem_append.mp h
    exact (x.lays depth _ hx).append
      (.text (by decide) (argumentPieces_lays depth (y :: rest) hrest))

theorem Stmt.lays (depth : Nat) : ∀ s : Stmt, AllOneLine s.words → Lays true true (s.pieces depth)
  | .expr value, h => .append (.margin depth ((value.lays depth _ h).enclosed _)) .lineEnd
  | .ret value, h => .append (.margin depth (.text (by decide) (value.lays depth _ h))) .lineEnd
  | .var name value, h => by
    obtain ⟨hname, hvalue⟩ := forall_mem_cons.mp h
    have hfront : isOneLine ("var " ++ name ++ " = ") := by
      rw [isOneLine_append, isOneLine_append, hname]
      rfl
    exact .append (.margin depth (.text hfront (value.lays depth _ hvalue))) .lineEnd
  | .function name params body, h => by
    obtain ⟨hname, hparams, hbody⟩ := AllOneLine.function h
    have hfront : isOneLine ("function " ++ name) := by
      rw [isOneLine_append, hname]
      rfl
    exact .margin depth (.block (isOneLine_signature hfront hparams)
      (bodyPieces_lays (depth + 1) body hbody) depth (.text (by decide) (.newline (.nil _))))
  | .missing, _ => .nil _

theorem bodyPieces_lays (depth : Nat) : ∀ body : List Stmt,
    AllOneLine (bodyWords body) → Lays true true (bodyPieces depth body)
  | [], _ => .nil _
  | s :: rest, h => by
    obtain ⟨hs, hrest⟩ := forall_mem_append.mp h
    exact (s.lays depth hs).append (bodyPieces_lays depth rest hrest)

end

/-! ## Lines of a script -/

/-- A line: how deep it stands, and its text. -/
structure Line where
  depth : Nat := 0
  text : List Char := []
deriving DecidableEq, Repr

def Line.chars (width : Nat) (line : Line) : List Char :=
  List.replicate (line.depth * width) ' ' ++ line.text

/-- The lines of pieces, from a line on that was begun. -/
def linesFrom (line : Line) : List Piece → List Line
  | [] => [line]
  | .text t :: ps => linesFrom { line with text := line.text ++ t.toList } ps
  | .newline :: ps => line :: linesFrom {} ps
  | .margin depth :: ps => linesFrom { line with depth } ps

/-- Whatever the width, the text of pieces is cut into the same lines. -/
theorem Lays.splitChars_layout {start ends : Bool} {ps : List Piece} (h : Lays start ends ps)
    (width : Nat) {line : Line} (hline : '\n' ∉ line.text) (hstart : start → line = {}) :
    Text.splitChars '\n' (line.chars width ++ layout width ps) =
      (linesFrom line ps).map (Line.chars width) := by
  have hchars : ∀ {line : Line}, '\n' ∉ line.text → '\n' ∉ line.chars width := by
    intro line hline hmem
    rcases mem_append.mp hmem with hspace | htext
    · exact absurd (eq_of_mem_replicate hspace) (by decide)
    · exact hline htext
  induction h generalizing line with
  | nil =>
    rw [Layout.nil, append_nil, Text.splitChars_eq_splitOn, splitOn_eq_singleton (hchars hline)]
    rfl
  | @text _ _ t _ ht _ ih =>
    have htext : '\n' ∉ line.text ++ t.toList := by
      rw [isOneLine, Bool.not_eq_true', ← Bool.not_eq_true, contains_iff_mem] at ht
      rw [mem_append, not_or]
      exact ⟨hline, ht⟩
    have hlater := @ih { line with text := line.text ++ t.toList } htext Bool.noConfusion
    rw [Layout.text, linesFrom, ← hlater, Line.chars, Line.chars, append_assoc,
      append_assoc, append_assoc]
  | @newline _ _ ps _ ih =>
    have hlater := @ih {} not_mem_nil fun _ => rfl
    have hempty : Line.chars width {} = [] := by
      rw [Line.chars, Nat.zero_mul]
      rfl
    rw [hempty, nil_append] at hlater
    rw [Layout.newline, linesFrom, map_cons, ← hlater, Text.splitChars_eq_splitOn,
      splitOn_append_cons_self, splitOn_eq_singleton (hchars hline),
      Text.splitChars_eq_splitOn]
    rfl
  | margin depth _ ih =>
    obtain rfl := hstart rfl
    have hlater := @ih { depth } not_mem_nil Bool.noConfusion
    rw [Layout.margin, linesFrom, ← hlater]
    simp [Line.chars]

/-- Code whose names and numbers have no line feed in them has the same lines for every width: each
is its depth times the width of spaces and a text that does not depend on the width. Code that
follows is printed as if it stood alone, so the depth is nought again at the end. -/
theorem Code.text_lines (code : Code) (h : ∀ word ∈ bodyWords code, '\n' ∉ word.toList) :
    (∃ lines : List Line, ∀ width : Int, 0 < width →
      Text.splitChars '\n' (code.text width).toList = lines.map (Line.chars width.toNat)) ∧
    ∀ (width : Int) (more : Code),
      Code.text width (code ++ more) = code.text width ++ more.text width := by
  constructor
  · have hwords : AllOneLine (bodyWords code) := by
      intro word hword
      rw [isOneLine, Bool.not_eq_true', ← Bool.not_eq_true, List.contains_iff_mem]
      exact h word hword
    refine ⟨linesFrom {} (bodyPieces 0 code), fun width hwidth => ?_⟩
    have hlines := @Lays.splitChars_layout _ _ _ (bodyPieces_lays 0 code hwords) width.toNat {}
      List.not_mem_nil fun _ => rfl
    rw [Code.toList_text, indentWidth, if_neg (Int.not_le.mpr hwidth), ← hlines]
    simp [Line.chars]
  · intro width more
    have hpieces : bodyPieces 0 (code ++ more) = bodyPieces 0 code ++ bodyPieces 0 more := by
      induction code with
      | nil => rfl
      | cons s code ih =>
        rw [List.cons_append, bodyPieces, bodyPieces, List.append_assoc, ih]
        exact fun word hword => h word (List.mem_append_right _ hword)
    rw [Code.text, hpieces, List.map_append, String.join_append]
    rfl

/-- An object in a branch, and a function with two statements in an argument. -/
def nestedCode : Code :=
  [.var "x" (.ternary (.name "c") (.object [("a", .number "1"), ("b", .name "y")]) (.name "z")),
    .expr (.call (.name "f") [.function "" [("k", none)] [.ret (.name "k"), .ret (.name "x")]])]

theorem nestedCode_lines :
    (∀ word ∈ bodyWords nestedCode, '\n' ∉ word.toList) ∧
      ∃ lines : List Line, ∀ width : Int, 0 < width →
        Text.splitChars '\n' (nestedCode.text width).toList = lines.map (Line.chars width.toNat) := by
  have hwords : ∀ word ∈ bodyWords nestedCode, '\n' ∉ word.toList := by decide
  exact ⟨hwords, (nestedCode.text_lines hwords).1⟩

end Stencil.Script
