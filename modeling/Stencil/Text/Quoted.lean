import Stencil.Text.CharClass

/-! Quoted text as messages show it: printable characters stand for themselves, the quote and the
backslash are escaped, and the rest is written by name or by code point. -/
namespace Stencil.Text.Quoted

def hex (width n : Nat) : String :=
  let digits := Nat.toDigits 16 n
  String.ofList (List.replicate (width - digits.length) '0' ++ digits)

def byte (b : UInt8) : String := "\\x" ++ hex 2 b.toNat

/-- The letter that names a control character after a backslash. -/
def controlName? (c : Char) : Option Char :=
  match c.toNat with
  | 0x07 => some 'a'
  | 0x08 => some 'b'
  | 0x0c => some 'f'
  | 0x0a => some 'n'
  | 0x0d => some 'r'
  | 0x09 => some 't'
  | 0x0b => some 'v'
  | _ => none

def escape (quote c : Char) : String :=
  if c = quote || c = '\\' then String.ofList ['\\', c]
  else if isPrintable c then c.toString
  else match controlName? c with
    | some name => String.ofList ['\\', name]
    | none =>
      if c.toNat < 0x20 || c.toNat = 0x7f then "\\x" ++ hex 2 c.toNat
      else if c.toNat < 0x10000 then "\\u" ++ hex 4 c.toNat
      else "\\U" ++ hex 8 c.toNat

def char (c : Char) : String := "'" ++ escape '\'' c ++ "'"

def body (cs : List Char) : String := String.join (cs.map (escape '"'))

def string (s : String) : String := "\"" ++ body s.toList ++ "\""

/-- The characters that fit into a number of bytes, and the bytes of the next one that still do. -/
def cut : Nat → List Char → List Char × List UInt8
  | _, [] => ([], [])
  | room, c :: cs =>
    if c.utf8Size ≤ room then
      let (whole, part) := cut (room - c.utf8Size) cs
      (c :: whole, part)
    else ([], (String.utf8EncodeChar c).take room)

/-- Quotes the first bytes of a text and three dots; the bytes of a split character are shown singly. -/
def abridged (room : Nat) (s : String) : String :=
  let (whole, part) := cut room s.toList
  "\"" ++ body whole ++ String.join (part.map byte) ++ "...\""

example : char '\'' = "'\\''" ∧ string "a\"\t" = "\"a\\\"\\t\"" := by decide
example : abridged 4 "ab日" = "\"ab\\xe6\\x97...\"" := by decide +kernel

end Stencil.Text.Quoted
