import Stencil.Literal
import Stencil.Token.Basic

/-! Faults in a source: why scanning or reading stops, and where. Every wording is in `Cause.message`. -/
namespace Stencil

/-- What the grammar asks for at a place. -/
inductive Expectation where
  | kind (k : TokenKind)
  | block | expression | attributeName | dictionaryKey | propertyName | selector | statement | name
  | link | elementEnd
deriving DecidableEq, Repr

def Expectation.text : Expectation → String
  | .kind k => k.name
  | .block => "css, html or import block"
  | .expression => "expression"
  | .attributeName => "attribute name"
  | .dictionaryKey => "dictionary key"
  | .propertyName => "property name"
  | .selector => "selector"
  | .statement => "statement"
  | .name => "name"
  | .link => "event name or \x7b"
  | .elementEnd => "text or new line after element"

inductive Cause where
  | tabIndentation
  | inconsistentDedent (width : Nat)
  | unmatchedClosing (bracket : Char)
  | unterminatedString
  | unexpectedCharacter (c : Char)
  | expected (what : Expectation) (got : Token)
  | letInBranch
  | storeOutsideElement
  | linkOutsideElement
  | badLiteral (literal : String) (flaw : Literal.Flaw)
deriving DecidableEq, Repr

namespace Cause

def message : Cause → String
  | .tabIndentation => "tab character in indentation"
  | .inconsistentDedent width =>
    s!"inconsistent dedent: indentation of {width} does not match any outer level"
  | .unmatchedClosing bracket => "unmatched closing bracket " ++ Text.Quoted.char bracket
  | .unterminatedString => "unterminated string literal"
  | .unexpectedCharacter c => "unexpected character " ++ Text.Quoted.char c
  | .expected what got => "expected " ++ what.text ++ ", got " ++ got.describe
  | .letInBranch => "let is not allowed inside if or for"
  | .storeOutsideElement => "store is only allowed inside an element"
  | .linkOutsideElement => "link is only allowed inside an element"
  | .badLiteral literal flaw => flaw.message literal

def hint : Cause → String
  | .tabIndentation => "indent with spaces"
  | .expected .elementEnd got =>
    if got.kind = .dash then "class and attribute names cannot contain spaces" else ""
  | _ => ""

end Cause

structure Fault where
  position : Position
  cause : Cause
deriving DecidableEq, Repr

def Fault.diagnostic (f : Fault) : Diagnostic := ⟨f.position, f.cause.message, f.cause.hint⟩

def Fault.report (f : Fault) : Report := ⟨[f.diagnostic]⟩

end Stencil
