/-! Letters and digits, cutting a text at a character, and texts as UTF-8 bytes for places where a
character may have been cut. -/
namespace Stencil.Text

/-- An ASCII letter or the underscore. -/
def isLetter (c : Char) : Bool := ('a' ≤ c && c ≤ 'z') || ('A' ≤ c && c ≤ 'Z') || c == '_'

def isDigit (c : Char) : Bool := '0' ≤ c && c ≤ '9'

/-- The parts between the separators. There is always one part more than there are separators. -/
def splitChars (separator : Char) : List Char → List (List Char)
  | [] => [[]]
  | c :: cs =>
    match splitChars separator cs with
    | part :: parts => if c = separator then [] :: part :: parts else (c :: part) :: parts
    | [] => [[c]]

def split (separator : Char) (text : String) : List String :=
  (splitChars separator text.toList).map String.ofList

example : splitChars '.' ".a..b".toList = [[], ['a'], [], ['b']] := by decide

/-- The equality test that contents of files are compared with. -/
instance instDecidableEqBytes : DecidableEq ByteArray := ByteArray.instDecidableEq

def joinBytes (pieces : List ByteArray) : ByteArray := pieces.foldl (· ++ ·) .empty

/-- The characters from an offset on. A byte that starts none is shown as a replacement character. -/
def decodeFrom (bytes : ByteArray) : Nat → Nat → List Char
  | 0, _ => []
  | rounds + 1, i =>
    if i < bytes.size then
      match bytes.utf8DecodeChar? i with
      | some c => c :: decodeFrom bytes rounds (i + c.utf8Size)
      | none => '\uFFFD' :: decodeFrom bytes rounds (i + 1)
    else []

/-- The text of bytes: the text itself if no character of it was cut. -/
def decode (bytes : ByteArray) : String :=
  match String.fromUTF8? bytes with
  | some text => text
  | none => String.ofList (decodeFrom bytes bytes.size 0)

example : decode ("日a".toUTF8.extract 1 4) = "\uFFFD\uFFFDa" := by decide +kernel

end Stencil.Text
