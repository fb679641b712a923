import Stencil.Fault
import Stencil.Token.Lexeme

/-! Tokens of a source, one at a time. Line breaks count only outside brackets, and a change of
indentation at the start of a line is a token of its own. The first fault ends the scan. -/
namespace Stencil

open Text (Cluster isLetter isDigit)

/-- A place in a source and what is left of it. Places only move forward, a cluster at a time. -/
structure Cursor where
  rest : List Cluster
  line : Nat := 1
  column : Nat := 1
  offset : Nat := 0
deriving DecidableEq, Repr

namespace Cursor

def step : Cursor → Cursor
  | ⟨k :: ks, line, column, offset⟩ =>
    if k.lead = '\n' then ⟨ks, line + 1, 1, offset + k.size⟩
    else ⟨ks, line, column + 1, offset + k.size⟩
  | c => c

/-- Moves over a number of clusters. -/
def skip : Nat → Cursor → Cursor
  | 0, c => c
  | n + 1, c => skip n c.step

def skipSpaces (c : Cursor) : Cursor := c.skip (c.rest.takeWhile (·.lead = ' ')).length

end Cursor

/-- Style words may hold dashes and dots; they are read from a `css` heading to the next heading. -/
inductive WordMode where
  | plain | style
deriving DecidableEq, Repr

/-- `brackets` and `indents` have the innermost entry first. -/
structure Lexer where
  file : String
  cursor : Cursor
  brackets : List Bracket := []
  indents : List Nat := [0]
  mode : WordMode := .plain
  last : TokenKind := .newline
  fault : Option (Token × Fault) := none
deriving DecidableEq, Repr

namespace Lexer

def start (file source : String) : Lexer := { file, cursor := ⟨Cluster.segment source, 1, 1, 0⟩ }

def faults (l : Lexer) : Report := ⟨l.fault.toList.map (·.2.diagnostic)⟩

/-- A token that starts at the cursor. -/
def token (l : Lexer) (kind : TokenKind) (literal : String) : Token :=
  ⟨kind, literal, l.cursor.line, l.cursor.column, l.cursor.offset⟩

/-- A token and the scanner after it, or a fault with its error token and the scanner where it was
found. -/
abbrev Scanned := Except ((Token × Fault) × Lexer) (Token × Lexer)

/-- Takes a number of clusters as one token. -/
def take (l : Lexer) (kind : TokenKind) (length : Nat) : Token × Lexer :=
  (l.token kind (Cluster.text (l.cursor.rest.take length)),
    { l with cursor := l.cursor.skip length })

/-- A fault at the cursor that is found after reading a number of clusters. -/
def fail (l : Lexer) (cause : Cause) (length : Nat := 0) : Scanned :=
  let t := l.token .error (Cluster.text (l.cursor.rest.take length))
  .error ((t, ⟨t.position l.file, cause⟩), { l with cursor := l.cursor.skip length })

/-- The last line ends even without a line break, then every open level ends. -/
def finish (l : Lexer) : Token × Lexer :=
  let layout := [TokenKind.newline, .indent, .dedent, .eof].contains l.last
  if l.brackets.isEmpty && !layout then (l.token .newline "", l)
  else match l.indents with
    | _ :: outer :: levels => (l.token .dedent "", { l with indents := outer :: levels })
    | _ => (l.token .eof "", l)

def openBracket (l : Lexer) (b : Bracket) : Token × Lexer :=
  (l.token (.opening b) b.opening.toString,
    { l with cursor := l.cursor.step, brackets := b :: l.brackets })

def closeBracket (l : Lexer) (b : Bracket) : Scanned :=
  match l.brackets with
  | top :: outer =>
    if top = b then
      .ok (l.token (.closing b) b.closing.toString,
        { l with cursor := l.cursor.step, brackets := outer })
    else l.fail (.unmatchedClosing b.closing) 1
  | [] => l.fail (.unmatchedClosing b.closing) 1

def quoted (l : Lexer) (quote : Char) (rest : List Cluster) : Scanned :=
  match Lexeme.stringRest quote rest with
  | some length => .ok (l.take .string (length + 1))
  | none => l.fail .unterminatedString (rest.length + 1)

/-- A word that is no style word; `css` as a heading starts style words. -/
def word (l : Lexer) : Token × Lexer :=
  let length := Lexeme.run Lexeme.isNamePart l.cursor.rest
  let kind := TokenKind.ofWord (Cluster.text (l.cursor.rest.take length))
  let heading := kind = .keyword .css && l.cursor.column = 1
  { l with mode := if heading then .style else l.mode }.take kind length

def headingMode (l : Lexer) (lead : Char) : WordMode :=
  if l.cursor.column = 1 && isLetter lead then .plain else l.mode

/-- Words, numbers and operators. -/
def bare (l : Lexer) (k : Cluster) (rest : List Cluster) : Scanned :=
  let l := { l with mode := l.headingMode k.lead }
  if l.mode = .style && Lexeme.isStyleWordStart k.lead then
    .ok (l.take .styleWord (Lexeme.run Lexeme.isStyleWordPart l.cursor.rest))
  else if isLetter k.lead then .ok l.word
  else if isDigit k.lead then .ok (l.take .number (Lexeme.number l.cursor.rest))
  else match Lexeme.operator k.lead (rest.head?.map (·.first)) with
    | some (kind, length) => .ok (l.take kind length)
    | none => l.fail (.unexpectedCharacter k.lead)

/-- The token after the blanks and comments at the cursor. -/
def content (l : Lexer) : Scanned :=
  let l := { l with cursor := l.cursor.skip (Lexeme.gap (!l.brackets.isEmpty) l.cursor.rest) }
  match l.cursor.rest with
  | [] => .ok l.finish
  | k :: rest =>
    if k.lead = '\n' then .ok (l.take .newline 1)
    else if k.lead = '"' || k.lead = '\'' then l.quoted k.lead rest
    else match Bracket.ofOpening? k.lead, Bracket.ofClosing? k.lead with
      | some b, _ => .ok (l.openBracket b)
      | none, some b => l.closeBracket b
      | none, none => l.bare k rest

/-- Compares the margin of a line with the open levels. A line that closes several levels stays at
its start until the last of them is closed. -/
def layout (l : Lexer) : Scanned :=
  let (width, next) := Lexeme.margin l.cursor.rest
  let inside := { l with cursor := l.cursor.skipSpaces }
  let top := l.indents.headD 0
  if next = some '\t' then inside.fail .tabIndentation
  else if width = top then inside.content
  else if top < width then
    .ok (inside.token .indent "", { inside with indents := width :: l.indents })
  else
    let levels := l.indents.tail
    let outer := levels.headD 0
    if outer < width then { inside with indents := levels }.fail (.inconsistentDedent width)
    else if outer = width then .ok (inside.token .dedent "", { inside with indents := levels })
    else
      .ok (⟨.dedent, "", l.cursor.line, width + 1, l.cursor.offset + width⟩,
        { l with indents := levels })

/-- Skips blank lines, then reads the layout of the first line with content. -/
def lineStart (l : Lexer) : Scanned :=
  let l := { l with cursor := l.cursor.skip (Lexeme.blankLines l.cursor.rest) }
  if l.cursor.rest.isEmpty then l.content else l.layout

def scan (l : Lexer) : Scanned :=
  if l.cursor.column = 1 && l.brackets.isEmpty then l.lineStart else l.content

/-- The next token. After a fault it is the same error token for ever. -/
def next (l : Lexer) : Token × Lexer :=
  match l.fault with
  | some (t, _) => (t, l)
  | none =>
    match l.scan with
    | .ok (t, l) => (t, { l with last := t.kind })
    | .error (fault, l) => (fault.1, { l with fault := some fault })

end Lexer

/-- How a scan ends: with the end of the source or with a fault and its error token. -/
inductive Ending where
  | eof (token : Token)
  | fault (token : Token) (fault : Fault)
deriving DecidableEq, Repr

def Ending.token : Ending → Token
  | .eof t => t
  | .fault t _ => t

/-- All tokens of a source before the one that ends it. -/
structure Scan where
  tokens : List Token
  ending : Ending
deriving DecidableEq, Repr

def Lexer.run : Nat → Lexer → Scan
  | 0, l => ⟨[], .eof (l.token .eof "")⟩
  | budget + 1, l =>
    match l.next with
    | (t, l) =>
      match l.fault with
      | some (t, fault) => ⟨[], .fault t fault⟩
      | none =>
        if t.kind = .eof then ⟨[], .eof t⟩
        else
          let later := run budget l
          ⟨t :: later.tokens, later.ending⟩

/-- Every cluster gives at most one token and one end of a level, so the budget is never used up. -/
def Scan.of (file source : String) : Scan :=
  let l := Lexer.start file source
  l.run (2 * l.cursor.rest.length + 2)

end Stencil
