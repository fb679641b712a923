import Stencil.Expr.Reading
import Stencil.Text.CharClass

/-! Format strings. A pair of braces around an expression stands for its value, a doubled brace for
one brace, and anything else for itself. From the first pair of braces that holds no expression on,
the rest is text as it stands. -/
namespace Stencil
namespace Format

/-- A format string piece by piece, before the expressions are read. -/
inductive Piece where
  | char (c : Char)
  | doubled (brace : Char)
  | span (source : List Char)
deriving DecidableEq, Repr

/-- The characters that a piece was read from. -/
def Piece.raw : Piece → List Char
  | .char c => [c]
  | .doubled brace => [brace, brace]
  | .span source => '{' :: source ++ ['}']

mutual

def pieces : List Char → List Piece
  | '{' :: '{' :: cs => .doubled '{' :: pieces cs
  | '}' :: '}' :: cs => .doubled '}' :: pieces cs
  | '{' :: cs => spanFrom [] cs
  | c :: cs => .char c :: pieces cs
  | [] => []

/-- Goes on after an opening brace; `read` holds what stands between, last character first. Without
a closing brace before the next opening one nothing is a span. -/
def spanFrom (read : List Char) : List Char → List Piece
  | '}' :: cs => .span read.reverse :: pieces cs
  | '{' :: '{' :: cs => (('{' :: read.reverse).map .char) ++ .doubled '{' :: pieces cs
  | '{' :: cs => (('{' :: read.reverse).map .char) ++ spanFrom [] cs
  | c :: cs => spanFrom (c :: read) cs
  | [] => ('{' :: read.reverse).map .char

end

/-- Reads the expressions of the spans and joins what stands between them. -/
def segments (read : String → Except Fault Expr) : List Piece → List Segment
  | [] => []
  | .char c :: rest => Segment.prepend c.toString (segments read rest)
  | .doubled brace :: rest => Segment.prepend brace.toString (segments read rest)
  | .span source :: rest =>
    match read (String.ofList (Text.trim source)) with
    | .ok x => .expr x :: segments read rest
    | .error _ => Segment.plain (String.ofList ((Piece.span source :: rest).flatMap Piece.raw))

/-- The segments of a text whose expressions hold format strings nested less deep than a bound. -/
def splitWithin : Nat → String → List Segment
  | 0, text => Segment.plain text
  | depth + 1, text =>
    segments (Expr.readWith (splitWithin depth) "") (pieces text.toList)

/-- The segments of a text. A format string inside another is shorter, so the length bounds the depth. -/
def split (text : String) : List Segment := splitWithin text.length text

end Format

/-- Reads a source that is one expression. -/
def Expr.read (file source : String) : Except Fault Expr := readWith Format.split file source

end Stencil
