import Stencil.Diagnostic
import Stencil.Text.Basic
import Stencil.Text.Quoted
import Stencil.Token.Kind

/-! Tokens and how messages speak of them. -/
namespace Stencil

/-- A token with the text it stands for and its place: the line, the column in clusters and the
offset in bytes. -/
structure Token where
  kind : TokenKind
  literal : String
  line : Nat
  column : Nat
  offset : Nat
deriving DecidableEq, Repr

namespace Token

def position (t : Token) (file : String) : Position := ⟨file, t.line, t.column⟩

/-- A token for listings. A literal of more than 20 bytes is abridged. -/
def summaryOf (kind literal : String) (line column : Int) : String :=
  let place := s!" at {line}:{column}"
  if literal.isEmpty then kind ++ place
  else
    let quoted :=
      if literal.utf8ByteSize > 20 then Text.Quoted.abridged 17 literal else Text.Quoted.string literal
    kind ++ "(" ++ quoted ++ ")" ++ place

/-- A line break is listed without its text. -/
def summaryOfNumber (kind : Int) (literal : String) (line column : Int) : String :=
  let shown := if TokenKind.ofNumber? kind = some .newline then "" else literal
  summaryOf (TokenKind.nameOfNumber kind) shown line column

def summary (t : Token) : String :=
  summaryOf t.kind.name (if t.kind = .newline then "" else t.literal) t.line t.column

/-- A token in a message: names and literals are shown with their text. -/
def describe (t : Token) : String :=
  match t.kind with
  | .identifier | .styleWord | .number | .string =>
    let quoted := match t.literal.toList.head? with
      | some '"' | some '\'' => t.literal
      | _ => Text.Quoted.string t.literal
    t.kind.name ++ " " ++ quoted
  | _ => t.kind.name

/-- A bare word: an identifier, or a keyword that is spelled as one. The mark `!` for negation is not. -/
def isWord (t : Token) : Bool :=
  match t.kind with
  | .identifier => true
  | .keyword _ => t.literal.toList.head?.any Text.isLetter
  | _ => false

/-- The offset of what follows the token's text. -/
def stop (t : Token) : Nat := t.offset + t.literal.utf8ByteSize

end Token
end Stencil
