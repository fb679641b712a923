/-! Kinds of tokens, their names in messages and the reserved words. -/
namespace Stencil

inductive Keyword where
  | css | html | «import» | «from» | «if» | «elif» | «else» | «for» | «in» | «of» | «let»
  | store | link | new | not | and | or | «as» | events | key
deriving DecidableEq, Repr

namespace Keyword

def all : List Keyword :=
  [.css, .html, .«import», .«from», .«if», .«elif», .«else», .«for», .«in», .«of», .«let»,
    .store, .link, .new, .not, .and, .or, .«as», .events, .key]

def text : Keyword → String
  | .css => "css"
  | .html => "html"
  | .«import» => "import"
  | .«from» => "from"
  | .«if» => "if"
  | .«elif» => "elif"
  | .«else» => "else"
  | .«for» => "for"
  | .«in» => "in"
  | .«of» => "of"
  | .«let» => "let"
  | .store => "store"
  | .link => "link"
  | .new => "new"
  | .not => "not"
  | .and => "and"
  | .or => "or"
  | .«as» => "as"
  | .events => "events"
  | .key => "key"

def ofText? (word : String) : Option Keyword := all.find? (·.text = word)

end Keyword

inductive Bracket where
  | paren | square | brace
deriving DecidableEq, Repr

namespace Bracket

def opening : Bracket → Char
  | .paren => '('
  | .square => '['
  | .brace => '{'

def closing : Bracket → Char
  | .paren => ')'
  | .square => ']'
  | .brace => '}'

def all : List Bracket := [.paren, .square, .brace]

def ofOpening? (c : Char) : Option Bracket := all.find? (·.opening = c)

def ofClosing? (c : Char) : Option Bracket := all.find? (·.closing = c)

end Bracket

inductive TokenKind where
  | eof | error | newline | indent | dedent
  | keyword (word : Keyword)
  | identifier | styleWord | number | string
  | comma | equals | doubleEquals | notEquals | greater | less | greaterOrEqual | lessOrEqual
  | colon | dot | dash | plus | times | slash | question | arrow
  | opening (bracket : Bracket)
  | closing (bracket : Bracket)
deriving DecidableEq, Repr

namespace TokenKind

def name : TokenKind → String
  | .eof => "end of file"
  | .error => "error"
  | .newline => "new line"
  | .indent => "indentation"
  | .dedent => "unindent"
  | .keyword word => word.text
  | .identifier => "identifier"
  | .styleWord => "css word"
  | .number => "number"
  | .string => "quoted string"
  | .comma => "comma"
  | .equals => "equals"
  | .doubleEquals => "double equals"
  | .notEquals => "not equals"
  | .greater => "greater"
  | .less => "less"
  | .greaterOrEqual => "greater or equal"
  | .lessOrEqual => "less or equal"
  | .colon => "colon"
  | .dot => "dot"
  | .dash => "dash"
  | .plus => "plus"
  | .times => "multiply"
  | .slash => "division"
  | .question => "question mark"
  | .arrow => "arrow right"
  | .opening b => b.opening.toString
  | .closing b => b.closing.toString

/-- Every kind, in the order of its number. -/
def all : List TokenKind :=
  ([.eof, .error, .newline, .indent, .dedent] : List TokenKind) ++ Keyword.all.map .keyword ++
    ([.identifier, .styleWord, .number, .string, .comma, .equals, .doubleEquals, .notEquals,
      .greater, .less, .greaterOrEqual, .lessOrEqual, .colon, .dot, .dash, .plus, .times, .slash,
      .question, .arrow] : List TokenKind) ++
    Bracket.all.flatMap fun b => [.opening b, .closing b]

def ofNumber? : Int → Option TokenKind
  | .ofNat n => all[n]?
  | .negSucc _ => none

/-- The name of the kind with this number; a number without a kind is shown itself. -/
def nameOfNumber (n : Int) : String :=
  match ofNumber? n with
  | some kind => kind.name
  | none => s!"TokenType({n})"

/-- A word is a keyword if it is reserved and an identifier otherwise. -/
def ofWord (word : String) : TokenKind :=
  match Keyword.ofText? word with
  | some k => .keyword k
  | none => .identifier

end TokenKind
end Stencil
