import Stencil.Text.Quoted

/-! String literals: a text between two equal quotes, with backslash escapes. -/
namespace Stencil.Literal

/-- Why a literal has no value. -/
inductive Flaw where
  | tooShort | unquoted | danglingBackslash
deriving DecidableEq, Repr

def Flaw.message (literal : String) : Flaw → String
  | .tooShort => "string literal " ++ Text.Quoted.string literal ++ " is too short"
  | .unquoted => "string literal " ++ Text.Quoted.string literal ++ " is not quoted"
  | .danglingBackslash => "string literal " ++ Text.Quoted.string literal ++ " ends with a backslash"

/-- What a character means after a backslash. -/
def escaped (c : Char) : Char :=
  if c = 'n' then '\n' else if c = 'r' then '\r' else if c = 't' then '\t' else c

/-- Resolves the escapes; a backslash with nothing after it has no meaning. -/
def unescape : List Char → Option (List Char)
  | [] => some []
  | ['\\'] => none
  | '\\' :: c :: cs => (unescape cs).map (escaped c :: ·)
  | c :: cs => (unescape cs).map (c :: ·)

/-- The text that a literal stands for. -/
def value (literal : String) : Except Flaw String :=
  if literal.utf8ByteSize < 2 then .error .tooShort
  else match literal.toList with
    | [] => .error .tooShort
    | quote :: rest =>
      if (quote = '"' || quote = '\'') && rest.getLast? = some quote then
        match unescape rest.dropLast with
        | some cs => .ok (String.ofList cs)
        | none => .error .danglingBackslash
      else .error .unquoted

end Stencil.Literal
