import Stencil.Text.Basic
import Stencil.Text.Cluster
import Stencil.Token.Kind

/-! How far a token, a gap between tokens or a run of blank lines reaches. Every length here counts
clusters from the front of what is left of the source. -/
namespace Stencil.Lexeme

open Text (Cluster isLetter isDigit)

/-- Lines that hold nothing but spaces and a comment. `read` counts the clusters of the line so far. -/
def blankLinesFrom (read : Nat) (comment : Bool) : List Cluster → Nat
  | [] => read
  | k :: ks =>
    if k.lead = '\n' then read + 1 + blankLinesFrom 0 false ks
    else if comment then blankLinesFrom (read + 1) true ks
    else if k = ⟨' ', []⟩ then blankLinesFrom (read + 1) false ks
    else if k.first = '#' then blankLinesFrom (read + 1) true ks
    else 0

def blankLines : List Cluster → Nat := blankLinesFrom 0 false

/-- The number of space characters in front, and the character after them. -/
def margin : List Cluster → Nat × Option Char
  | [] => (0, none)
  | k :: ks =>
    if k.first = ' ' then
      match k.joined with
      | [] => let (width, next) := margin ks; (width + 1, next)
      | c :: _ => (1, some c)
    else (0, some k.lead)

/-- Blanks and comments between tokens; inside brackets also line breaks. -/
def gapFrom (bracketed comment : Bool) : List Cluster → Nat
  | [] => 0
  | k :: ks =>
    if k.lead = '\n' then if bracketed then 1 + gapFrom bracketed false ks else 0
    else if comment then 1 + gapFrom bracketed true ks
    else if k.lead = ' ' || k.lead = '\t' || k.lead = '\r' then 1 + gapFrom bracketed false ks
    else if k.lead = '#' then 1 + gapFrom bracketed true ks
    else 0

def gap (bracketed : Bool) : List Cluster → Nat := gapFrom bracketed false

/-- What is left of a string after its opening quote, the closing quote included. A backslash takes
the next cluster with it. -/
def stringRest (quote : Char) : List Cluster → Option Nat
  | [] => none
  | k :: ks =>
    if k.lead = quote then some 1
    else if k.lead = '\\' then
      match ks with
      | [] => none
      | _ :: ks => (stringRest quote ks).map (· + 2)
    else (stringRest quote ks).map (· + 1)

def isNamePart (c : Char) : Bool := isLetter c || isDigit c

def isStyleWordStart (c : Char) : Bool := isLetter c || isDigit c || c == '-'

def isStyleWordPart (c : Char) : Bool := isStyleWordStart c || c == '.' || c == '%'

def run (part : Char → Bool) (ks : List Cluster) : Nat := (ks.takeWhile (part ·.lead)).length

/-- Digits and underscores; a dot belongs to the number only in front of a digit. -/
def number : List Cluster → Nat
  | [] => 0
  | k :: ks =>
    if isDigit k.lead || k.lead = '_' || (k.lead = '.' && ks.head?.any (isDigit ·.first)) then
      1 + number ks
    else 0

/-- The operator or punctuation mark that starts with a character, by the one after it. -/
def operator (c : Char) (next : Option Char) : Option (TokenKind × Nat) :=
  let pair (second : Char) (long short : TokenKind) :=
    if next = some second then some (long, 2) else some (short, 1)
  match c with
  | '=' => pair '=' .doubleEquals .equals
  | '!' => pair '=' .notEquals (.keyword .not)
  | '>' => pair '=' .greaterOrEqual .greater
  | '<' => pair '=' .lessOrEqual .less
  | '-' => pair '>' .arrow .dash
  | ',' => some (.comma, 1)
  | ':' => some (.colon, 1)
  | '.' => some (.dot, 1)
  | '+' => some (.plus, 1)
  | '*' => some (.times, 1)
  | '/' => some (.slash, 1)
  | '?' => some (.question, 1)
  | _ => none

end Stencil.Lexeme
