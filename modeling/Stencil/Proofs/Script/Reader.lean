import Stencil.Script.Text
import Stencil.Text.Basic

/-!
# A reader for the text of JavaScript code

The reader knows nothing of the printer: it has its own table of strengths, it skips spaces and
line breaks between symbols, and parentheses leave no trace in a tree. A conditional is read only
as `((c)?(t):(e))`. A function with a name that starts a statement is a declaration if a line
break follows its closing brace, and the start of an expression otherwise.
-/
namespace Stencil.Script.Reader

def skip : List Char → List Char
  | [] => []
  | c :: s => if c = ' ' ∨ c = '\n' then skip s else c :: s

def isNamePart (c : Char) : Bool := isNameStart c || Text.isDigit c

def word (s : List Char) : String × List Char :=
  (String.ofList (s.takeWhile isNamePart), s.dropWhile isNamePart)

/-- An identifier right in front. -/
def identifier : List Char → Option (String × List Char)
  | [] => none
  | c :: s => if isNameStart c then some (word (c :: s)) else none

/-- Digits and underscores; a dot belongs to a number only in front of a digit. -/
def number : List Char → List Char × List Char
  | [] => ([], [])
  | c :: s =>
    if Text.isDigit c || c == '_' || (c == '.' && s.head?.any Text.isDigit) then
      let (digits, rest) := number s
      (c :: digits, rest)
    else ([], c :: s)

def hexDigit? (c : Char) : Option Nat :=
  if '0' ≤ c ∧ c ≤ '9' then some (c.toNat - 48)
  else if 'a' ≤ c ∧ c ≤ 'f' then some (c.toNat - 87)
  else none

def escaped (c : Char) : Char :=
  if c = 'n' then '\n' else if c = 'r' then '\r' else if c = 't' then '\t' else c

/-- A string literal after its opening quote. -/
def literal : List Char → Option (List Char × List Char)
  | [] => none
  | '"' :: s => some ([], s)
  | '\\' :: 'x' :: high :: low :: s => do
    let high ← hexDigit? high
    let low ← hexDigit? low
    let (text, s) ← literal s
    some (Char.ofNat (16 * high + low) :: text, s)
  | '\\' :: c :: s => do
    let (text, s) ← literal s
    some (escaped c :: text, s)
  | c :: s => do
    let (text, s) ← literal s
    some (c :: text, s)

/-- What stands between two operands. -/
inductive Joint where
  | assign | or | and
  | relation (op : Relation)
  | arith (op : ArithOp)
deriving DecidableEq, Repr

namespace Joint

/-- From the loosest to the tightest. -/
def strength : Joint → Nat
  | .assign => 1
  | .or => 2
  | .and => 3
  | .relation .equal | .relation .notEqual => 4
  | .relation _ => 5
  | .arith .add | .arith .sub => 6
  | .arith .mul | .arith .div => 7

/-- How tight the right operand has to hold together: only `=` takes another `=` there. -/
def rightStrength : Joint → Nat
  | .assign => 1
  | j => j.strength + 1

/-- Only an attribute can be assigned to. -/
def join : Joint → Expr → Expr → Option Expr
  | .assign, .attribute object name, value => some (.assign object name value)
  | .assign, _, _ => none
  | .or, x, y => some (.or x y)
  | .and, x, y => some (.and x y)
  | .relation op, x, y => some (.operation (.relation op) x y)
  | .arith op, x, y => some (.operation (.arith op) x y)

/-- The longest joint right in front. -/
def front : List Char → Option (Joint × List Char)
  | '|' :: '|' :: s => some (.or, s)
  | '&' :: '&' :: s => some (.and, s)
  | '=' :: '=' :: '=' :: s => some (.relation .equal, s)
  | '!' :: '=' :: '=' :: s => some (.relation .notEqual, s)
  | '=' :: s => some (.assign, s)
  | '<' :: '=' :: s => some (.relation .lessOrEqual, s)
  | '<' :: s => some (.relation .less, s)
  | '>' :: '=' :: s => some (.relation .greaterOrEqual, s)
  | '>' :: s => some (.relation .greater, s)
  | '+' :: s => some (.arith .add, s)
  | '-' :: s => some (.arith .sub, s)
  | '*' :: s => some (.arith .mul, s)
  | '/' :: s => some (.arith .div, s)
  | _ => none

end Joint

/-- Takes one symbol, which blanks may precede. -/
def symbol (c : Char) (s : List Char) : Option (List Char) :=
  match skip s with
  | [] => none
  | d :: s => if d = c then some s else none

/-- The name of a property: an identifier or a string. -/
def key (s : List Char) : Option (String × List Char) :=
  match skip s with
  | '"' :: s => (literal s).map fun (text, s) => (String.ofList text, s)
  | s => identifier s

/-- The words that are no names. -/
structure Grammar where
  reserved : List String

def script : Grammar := ⟨["new", "function", "return", "var"]⟩

namespace Grammar

/-- Names with commas between them, up to the closing parenthesis. -/
def names (g : Grammar) (s : List Char) : Option (List String × List Char) :=
  match skip s with
  | ')' :: s => some ([], s)
  | s => do
    let (name, s) ← identifier s
    if name ∈ g.reserved then none
    else match skip s with
      | ')' :: s => some ([name], s)
      | ',' :: s => do
        let (rest, s) ← g |>.names s
        some (name :: rest, s)
      | _ => none
partial_fixpoint

mutual

/-- An expression whose joints have at least a strength. -/
def expr (g : Grammar) (least : Nat) (s : List Char) : Option (Expr × List Char) := do
  let (x, s) ← g |>.operand true s
  g |>.climb least x s
partial_fixpoint

/-- Goes on after an operand, joining to the left. -/
def climb (g : Grammar) (least : Nat) (x : Expr) (s : List Char) : Option (Expr × List Char) :=
  match Joint.front (skip s) with
  | none => some (x, s)
  | some (j, rest) =>
    if j.strength < least then some (x, s)
    else do
      let (y, s) ← g |>.expr j.rightStrength rest
      let z ← j.join x y
      g |>.climb least z s
partial_fixpoint

/-- What joints join. A negation may not stand right after `new`. -/
def operand (g : Grammar) (negation : Bool) (s : List Char) : Option (Expr × List Char) :=
  match skip s with
  | [] => none
  | '!' :: s =>
    if negation then do
      let (x, s) ← g |>.operand true s
      some (.not x, s)
    else none
  | '(' :: s => do
    let (x, s) ← g |>.parenthesis s
    g |>.suffixes x s
  | '[' :: s => do
    let (xs, s) ← g |>.items ']' s
    g |>.suffixes (.list xs) s
  | '{' :: s => do
    let (ps, s) ← g |>.properties s
    g |>.suffixes (.object ps) s
  | '"' :: s => do
    let (text, s) ← literal s
    g |>.suffixes (.string (String.ofList text)) s
  | c :: s =>
    if Text.isDigit c then
      let (digits, s) := number (c :: s)
      g |>.suffixes (.number (String.ofList digits)) s
    else do
      let (w, s) ← identifier (c :: s)
      if w = "new" then do
        let (x, s) ← g |>.operand false s
        some (.new x, s)
      else if w = "function" then do
        let ((name, params, body), s) ← g |>.function s
        g |>.suffixes (.function name params body) s
      else if w ∈ g.reserved then none
      else g |>.suffixes (.name w) s
partial_fixpoint

/-- Attributes, indices and calls, as many as there are. -/
def suffixes (g : Grammar) (x : Expr) (s : List Char) : Option (Expr × List Char) :=
  match skip s with
  | '.' :: s => do
    let (name, s) ← identifier (skip s)
    g |>.suffixes (.attribute x name) s
  | '[' :: s => do
    let (index, s) ← g |>.expr 0 s
    let s ← symbol ']' s
    g |>.suffixes (.item x index) s
  | '(' :: s => do
    let (arguments, s) ← g |>.items ')' s
    g |>.suffixes (.call x arguments) s
  | _ => some (x, s)
partial_fixpoint

/-- After an opening parenthesis. Two of them and a question mark behind the first to close make a
conditional. -/
def parenthesis (g : Grammar) (s : List Char) : Option (Expr × List Char) :=
  match skip s with
  | '(' :: s => do
    let (x, s) ← g |>.parenthesis s
    match skip s with
    | '?' :: s => do
      let s ← symbol '(' s
      let (chosen, s) ← g |>.parenthesis s
      let s ← symbol ':' s
      let s ← symbol '(' s
      let (otherwise, s) ← g |>.parenthesis s
      let s ← symbol ')' s
      some (.ternary x chosen otherwise, s)
    | _ => do
      let (x, s) ← g |>.suffixes x s
      let (x, s) ← g |>.climb 0 x s
      let s ← symbol ')' s
      some (x, s)
  | _ => do
    let (x, s) ← g |>.expr 0 s
    let s ← symbol ')' s
    some (x, s)
partial_fixpoint

/-- Expressions up to a closing bracket, with commas between them and perhaps one at the end. -/
def items (g : Grammar) (closing : Char) (s : List Char) : Option (List Expr × List Char) :=
  match skip s with
  | [] => none
  | c :: rest =>
    if c = closing then some ([], rest)
    else do
      let (x, s) ← g |>.expr 0 s
      match skip s with
      | [] => none
      | d :: s =>
        if d = closing then some ([x], s)
        else if d = ',' then do
          let (xs, s) ← g |>.items closing s
          some (x :: xs, s)
        else none
partial_fixpoint

/-- Properties up to the closing brace. -/
def properties (g : Grammar) (s : List Char) : Option (List (String × Expr) × List Char) :=
  match skip s with
  | '}' :: s => some ([], s)
  | _ => do
    let (name, s) ← key s
    let s ← symbol ':' s
    let (x, s) ← g |>.expr 0 s
    match skip s with
    | '}' :: s => some ([(name, x)], s)
    | ',' :: s => do
      let (ps, s) ← g |>.properties s
      some ((name, x) :: ps, s)
    | _ => none
partial_fixpoint

/-- After the word `function`: a name, if there is one, then parameters and a body. -/
def function (g : Grammar) (s : List Char) :
    Option ((String × List (String × Option Expr) × List Stmt) × List Char) := do
  let (name, s) := word (skip s)
  let s ← symbol '(' s
  let (params, s) ← g |>.names s
  let s ← symbol '{' s
  let (body, s) ← g |>.statements s
  let s ← symbol '}' s
  some ((name, params.map (·, none), body), s)
partial_fixpoint

/-- Statements up to a closing brace or the end. -/
def statements (g : Grammar) (s : List Char) : Option (List Stmt × List Char) :=
  match skip s with
  | [] => some ([], [])
  | '}' :: s => some ([], '}' :: s)
  | s => do
    let (first, s) ← g |>.statement s
    let (rest, s) ← g |>.statements s
    some (first :: rest, s)
partial_fixpoint

/-- A statement right in front. -/
def statement (g : Grammar) (s : List Char) : Option (Stmt × List Char) :=
  match word s with
  | ("var", s) => do
    let (name, s) ← identifier (skip s)
    let s ← symbol '=' s
    let (x, s) ← g |>.expr 0 s
    let s ← symbol ';' s
    some (.var name x, s)
  | ("return", s) => do
    let (x, s) ← g |>.expr 0 s
    let s ← symbol ';' s
    some (.ret x, s)
  | ("function", s) => do
    let ((name, params, body), s) ← g |>.function s
    if name ≠ "" ∧ s.head? = some '\n' then some (.function name params body, s)
    else do
      let (x, s) ← g |>.suffixes (.function name params body) s
      let (x, s) ← g |>.climb 0 x s
      let s ← symbol ';' s
      some (.expr x, s)
  | _ => do
    let (x, s) ← g |>.expr 0 s
    let s ← symbol ';' s
    some (.expr x, s)
partial_fixpoint

end

end Grammar

/-- The tree of a whole text. -/
def read (text : String) : Option Code := do
  let (code, rest) ← script.statements text.toList
  if rest = [] then some code else none

end Stencil.Script.Reader
