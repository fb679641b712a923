/-! Whole numbers as they are typed: a sign, a base mark and digits with underscores between them. -/
namespace Stencil.Text.Numeral

inductive Flaw where
  | malformed | outOfRange
deriving DecidableEq, Repr

def Flaw.message : Flaw → String
  | .malformed => "parse error"
  | .outOfRange => "value out of range"

def digit? (c : Char) : Option Nat :=
  if '0' ≤ c && c ≤ '9' then some (c.toNat - '0'.toNat)
  else if 'a' ≤ c && c ≤ 'z' then some (c.toNat - 'a'.toNat + 10)
  else if 'A' ≤ c && c ≤ 'Z' then some (c.toNat - 'A'.toNat + 10)
  else none

/-- The base that a number starts with, and the digits after the mark. A mark needs a digit after it. -/
def baseOf : List Char → Nat × List Char
  | '0' :: mark :: c :: cs =>
    if mark = 'x' || mark = 'X' then (16, c :: cs)
    else if mark = 'o' || mark = 'O' then (8, c :: cs)
    else if mark = 'b' || mark = 'B' then (2, c :: cs)
    else (8, mark :: c :: cs)
  | '0' :: cs => (8, cs)
  | cs => (10, cs)

/-- The greatest signed number of 64 bits. -/
def greatest : Nat := 0x7fffffffffffffff

/-- Reads digits from the left; a number of more than 64 bits ends the reading. -/
def magnitude (base : Nat) : Nat → List Char → Except Flaw Nat
  | n, [] => .ok n
  | n, c :: cs =>
    if c = '_' then magnitude base n cs
    else match digit? c with
      | none => .error .malformed
      | some d =>
        if base ≤ d then .error .malformed
        else if 2 * (greatest + 1) ≤ n * base + d then .error .outOfRange
        else magnitude base (n * base + d) cs

/-- Every underscore has a digit on both sides; a base mark counts as a digit. -/
def separated (afterDigit : Bool) : List Char → Bool
  | [] => true
  | '_' :: c :: cs => afterDigit && c ≠ '_' && separated false (c :: cs)
  | ['_'] => false
  | _ :: cs => separated true cs

/-- The part of a number in which underscores are looked at, and whether a base mark is before it. -/
def separatedPart : List Char → Bool × List Char
  | '0' :: mark :: cs =>
    if "xXoObB".toList.contains mark then (true, cs) else (false, '0' :: mark :: cs)
  | cs => (false, cs)

def natural (cs : List Char) : Except Flaw Nat := do
  if cs.isEmpty then throw .malformed
  let (base, digits) := baseOf cs
  let n ← magnitude base 0 digits
  let (marked, part) := separatedPart cs
  if separated marked part then return n else throw .malformed

/-- Reads a signed number of 64 bits. -/
def read (text : String) : Except Flaw Int :=
  let limited (limit : Nat) (signed : Nat → Int) (cs : List Char) : Except Flaw Int := do
    let n ← natural cs
    if n ≤ limit then return signed n else throw .outOfRange
  match text.toList with
  | '-' :: cs => limited (greatest + 1) Int.negOfNat cs
  | '+' :: cs => limited greatest Int.ofNat cs
  | cs => limited greatest Int.ofNat cs

end Stencil.Text.Numeral
