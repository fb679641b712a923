import Stencil.Expr.Basic
import Stencil.Token.Lexer

/-! Readers over the tokens of a source. A reader takes tokens from the front and gives a value and
the tokens that are left, or the first fault. Past the last token stands the one that ends the scan;
if a reader fails there and the scan ended in a fault, that fault is reported. -/
namespace Stencil

/-- What stays the same during a reading: `split` tells how the text of a string falls into segments. -/
structure Reading where
  file : String
  ending : Ending
  split : String → List Segment

/-- The fault of a reader that fails. -/
def Reading.faultAt (reading : Reading) (cause : Token → Cause) : List Token → Fault
  | t :: _ => ⟨t.position reading.file, cause t⟩
  | [] => match reading.ending with
    | .fault _ fault => fault
    | .eof t => ⟨t.position reading.file, cause t⟩

/-- What a reader does apart from looking at tokens. -/
inductive Action where
  | advance
  | split (text : String)
  /-- A loop goes on, or a reader starts over on a nested part. So many tokens were left at the last
  start, and so many are left now. -/
  | again (before now : Nat)
  /-- The rounds of a loop, or the levels of a nesting, are used up. -/
  | exhausted
deriving DecidableEq

/-- A reader logs what it does, whether it fails or not. The tokens that it leaves are those after its
steps over them: it neither makes up tokens nor goes back. -/
@[ext] structure Parser (α : Type) where
  run : Reading → List Token → Except Fault (α × List Token)
  log : Reading → List Token → List Action
  rest_eq : ∀ {reading tokens a rest}, run reading tokens = .ok (a, rest) →
    rest = tokens.drop ((log reading tokens).count .advance)

namespace Parser

variable {α β : Type}

instance : CoeFun (Parser α) fun _ => Reading → List Token → Except Fault (α × List Token) := ⟨run⟩

theorem suffix (p : Parser α) {reading : Reading} {tokens rest : List Token} {a : α}
    (h : p reading tokens = .ok (a, rest)) : rest <:+ tokens :=
  p.rest_eq h ▸ List.drop_suffix _ _

/-- Looks at the file and at the two tokens in front, and takes none. Past the last token stands the
one that ends the scan. -/
def peek (see : String → Token → Token → α) : Parser α where
  run reading tokens := .ok (see reading.file (tokens.headD reading.ending.token)
    (tokens.tail.headD reading.ending.token), tokens)
  log _ _ := []
  rest_eq h := by cases h; rfl

protected def bind (p : Parser α) (f : α → Parser β) : Parser β where
  run reading tokens :=
    match p reading tokens with
    | .ok (a, rest) => f a reading rest
    | .error fault => .error fault
  log reading tokens := p.log reading tokens ++
    match p reading tokens with
    | .ok (a, rest) => (f a).log reading rest
    | .error _ => []
  rest_eq h := by
    split at h
    · next a rest hp => rw [(f a).rest_eq h, p.rest_eq hp, List.drop_drop, List.count_append]
    · cases h

instance : Monad Parser where
  pure a := peek fun _ _ _ => a
  bind := Parser.bind

section Bind

variable {p : Parser α} {f : α → Parser β} {reading : Reading} {tokens rest : List Token}

theorem bind_of_ok {a : α} (h : p reading tokens = .ok (a, rest)) :
    (p >>= f) reading tokens = f a reading rest := by
  change (Parser.bind p f) reading tokens = _
  simp only [Parser.bind, h]

theorem bind_of_error {fault : Fault} (h : p reading tokens = .error fault) :
    (p >>= f) reading tokens = .error fault := by
  change (Parser.bind p f) reading tokens = _
  simp only [Parser.bind, h]

theorem bind_eq_ok {b : β} : (p >>= f) reading tokens = .ok (b, rest) ↔
    ∃ a middle, p reading tokens = .ok (a, middle) ∧ f a reading middle = .ok (b, rest) := by
  cases hp : p reading tokens with
  | error fault => simp [bind_of_error hp]
  | ok result =>
    rw [bind_of_ok hp]
    constructor
    · exact fun h => ⟨_, _, rfl, h⟩
    · rintro ⟨_, _, ⟨⟩, h⟩
      exact h

end Bind

/-- The token in front, or the one that ends the scan. -/
def current : Parser Token := peek fun _ t _ => t

def kind : Parser TokenKind := return (← current).kind

def here : Parser Position := peek fun file t _ => t.position file

/-- The kind of the token after the one in front. -/
def secondKind : Parser TokenKind := peek fun _ _ t => t.kind

def advance : Parser Unit where
  run _ tokens := .ok ((), tokens.tail)
  log _ _ := [.advance]
  rest_eq h := by cases h; exact List.drop_one.symm

def split (text : String) : Parser (List Segment) where
  run reading tokens := .ok (reading.split text, tokens)
  log _ _ := [.split text]
  rest_eq h := by cases h; rfl

/-- A fault at a token that was read before. -/
def failAt (t : Token) (cause : Cause) : Parser α where
  run reading _ := .error ⟨t.position reading.file, cause⟩
  log _ _ := []
  rest_eq h := by cases h

def fail (cause : Token → Cause) : Parser α where
  run reading tokens := .error (reading.faultAt cause tokens)
  log _ _ := []
  rest_eq h := by cases h

def expected (what : Expectation) : Parser α := fail (.expected what)

def expect (k : TokenKind) : Parser Token := do
  let t ← current
  if t.kind = k then
    advance
    return t
  else expected (.kind k)

/-- Takes a token of a kind if one is in front. -/
def accept (k : TokenKind) : Parser Bool := do
  if (← kind) = k then
    advance
    return true
  else return false

/-- The text that a string token stands for. -/
def stringValue : Parser String := do
  let t ← expect .string
  match Literal.value t.literal with
  | .ok value => return value
  | .error flaw => failAt t (.badLiteral t.literal flaw)

/-- A reader that is made for the number of tokens that are left. -/
def measured (make : Nat → Parser α) : Parser α where
  run reading tokens := make tokens.length reading tokens
  log reading tokens := (make tokens.length).log reading tokens
  rest_eq h := (make _).rest_eq h

/-- Gives a loop more rounds than there are tokens left. A round that goes on takes a token, so the
rounds are never used up. -/
def bounded (loop : Nat → Parser α) : Parser α := measured fun left => loop (left + 1)

theorem bounded_eq (loop : Nat → Parser α) (reading : Reading) (tokens : List Token) :
    bounded loop reading tokens = loop (tokens.length + 1) reading tokens := rfl

/-- What a loop goes on with after a round that started with so many tokens. -/
def again (before : Nat) (later : Parser α) : Parser α where
  run := later.run
  log reading tokens := .again before tokens.length :: later.log reading tokens
  rest_eq h := (later.rest_eq h).trans (by rw [List.count_cons_of_ne Action.noConfusion])

/-- What stands for a loop or a nesting that is used up. -/
def exhausted (p : Parser α) : Parser α where
  run := p.run
  log reading tokens := .exhausted :: p.log reading tokens
  rest_eq h := (p.rest_eq h).trans (by rw [List.count_cons_of_ne Action.noConfusion])

/-- One round of a loop, or one level of a nesting, which marks what it goes on with. -/
def round (step : (Parser α → Parser α) → Parser α) : Parser α :=
  measured fun left => step (again left)

theorem round_eq (step : (Parser α → Parser α) → Parser α) (reading : Reading)
    (tokens : List Token) : round step reading tokens = step (again tokens.length) reading tokens := rfl

/-- An item and those of the later rounds, while a condition on the token in front holds. -/
def manyStep (more : Token → Bool) (item : Parser α) (later : Parser (List α)) :
    Parser (List α) := do
  if more (← current) then
    let first ← item
    return first :: (← later)
  else return []

def manyWhile (more : Token → Bool) (item : Parser α) : Nat → Parser (List α)
  | 0 => exhausted (return [])
  | rounds + 1 => round fun again => manyStep more item (again (manyWhile more item rounds))

def many (more : Token → Bool) (item : Parser α) : Parser (List α) := bounded (manyWhile more item)

def commaListStep (more : Token → Bool) (item : Parser α) (later : Parser (List α)) :
    Parser (List α) := do
  if more (← current) then
    let first ← item
    if ← accept .comma then return first :: (← later)
    else return [first]
  else return []

def commaListFrom (more : Token → Bool) (item : Parser α) : Nat → Parser (List α)
  | 0 => exhausted (return [])
  | rounds + 1 => round fun again =>
    commaListStep more item (again (commaListFrom more item rounds))

/-- Items with commas between them and perhaps one after the last. A condition on the token in front
tells whether one more item follows. -/
def commaList (more : Token → Bool) (item : Parser α) : Parser (List α) :=
  bounded (commaListFrom more item)

/-- At least one item, with commas between them and none after the last. -/
def commaList1 (item : Parser α) : Parser (List α) := commaList (fun _ => true) item

/-- The colon and the line break after a heading. -/
def headingEnd : Parser Unit := do
  let _ ← expect .colon
  let _ ← expect .newline

/-- An indented part, if there is one. -/
def indented (item : Parser α) : Parser (List α) := do
  if ← accept .indent then
    let items ← many (·.kind ≠ .dedent) item
    let _ ← expect .dedent
    return items
  else return []

end Parser
end Stencil
