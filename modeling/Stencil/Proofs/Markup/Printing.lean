import Stencil.Proofs.Expr.Printing
import Stencil.Proofs.Markup.Placement
import Stencil.Proofs.Token.Outline

/-!
# Markup as it is written

A template without style blocks is written as an outline. Each statement has a line of its own, and
the statements of a body stand under the line that the body belongs to. Elements are always named,
lists that may be left out are left out when they are empty, and a branch starts with `if`, `elif`
or `else`. Expressions and texts are written as in `Expr.written`.
-/
namespace Stencil

open Written (word enclose)

/-- What the text of a template leaves open: the width of a level, whether markup blocks start with
the word `html`, and whether a text that is all there is in an element stands on its line. -/
structure Layout where
  width : Nat
  width_pos : 0 < width
  heading : Bool
  inline : Bool

namespace Written

def identifier (name : String) : Written := .mark .identifier name

def colon : Written := .mark .colon ":"

def equals : Written := .mark .equals "="

def string (text : List Char) : Written := .mark .string (Literal.quote text)

/-- A list in brackets, unless it is empty. -/
def enclosed (b : Bracket) (items : List (List Written)) : List Written :=
  if items.isEmpty then [] else enclose b (listed items)

def isNumberPart (c : Char) : Bool := Text.isDigit c || c = '_'

/-- What follows a dash in a name. Digits in front of a word are a token of their own. -/
def piece (part : String) : List Written :=
  if isWordText part then [.mark (.ofWord part) part]
  else
    let rest := part.toList.dropWhile isNumberPart
    .mark .number (String.ofList (part.toList.takeWhile isNumberPart)) ::
      if rest.isEmpty then [] else [.mark (.ofWord (String.ofList rest)) (String.ofList rest)]

/-- A name with dashes, such as `btn-2x`. -/
def dashed (name : String) : List Written :=
  match Text.split '-' name with
  | [] => []
  | first :: parts =>
    .mark (.ofWord first) first :: parts.flatMap fun part => .mark .dash "-" :: piece part

end Written

open Written (identifier colon equals listed enclosed dashed)

/-! ## Parts of lines -/

def Param.written (p : Param) : List Written :=
  identifier p.name :: p.fallback.elim [] fun literal => [equals, .mark .string literal]

/-- A parameter whose name is a token of a kind. -/
def Param.writtenOf (kind : TokenKind) (p : Param) : List Written :=
  .mark kind p.name :: p.fallback.elim [] fun literal => [equals, .mark .string literal]

def ClassClause.written (c : ClassClause) : List Written :=
  .mark .dot "." :: dashed c.name ++
    c.condition.elim [] fun x => .mark .question "?" :: enclose .paren (x.written 0)

def writtenAttribute (a : String × Expr) : List Written :=
  dashed a.1 ++ equals :: a.2.written 0

/-- The line of an element, apart from a text at its end. -/
def writtenElement (name : String) (classes : List ClassClause)
    (attributes : List (String × Expr)) : List Written :=
  identifier name :: classes.flatMap ClassClause.written ++
    enclosed .square (attributes.map writtenAttribute)

def LinkTarget.written (t : LinkTarget) : List Written :=
  t.value.elim (t.target.written 0) fun value =>
    joined (.mark .arrow "->") (value.written 0) (t.target.written 0)

/-- A name with a condition on the events that it stands for. -/
def writtenFiltered (name : String) (filter : Option Expr) : List Written :=
  identifier name :: filter.elim [] fun x => enclose .square (x.written 0)

def LinkEntry.written (e : LinkEntry) : List Written :=
  writtenFiltered e.member e.filter ++
    e.renamed.elim [] fun name => [colon, .blank, identifier name]

def Link.written : Link → List Written
  | .single event filter target => joined equals (writtenFiltered event filter) target.written
  | .multi entries target =>
    joined equals (enclose .brace (listed (entries.map LinkEntry.written))) target.written

def ImportName.written (n : ImportName) : List Written :=
  n.renamed.elim [identifier n.name] fun renamed =>
    joined (word .as) [identifier n.name] [identifier renamed]

/-- A name with its value, after a word for a binding. -/
def writtenBinding (k : Keyword) (name : String) (value : Expr) : List Written :=
  word k :: .blank :: joined equals [identifier name] (value.written 0)

/-- The heading of a branch. -/
def writtenBranch (k : Keyword) (condition : Expr) : List Written :=
  word k :: .blank :: condition.written 0 ++ [colon]

def writtenLoop (name : String) (items : Expr) : List Written :=
  word .«for» :: .blank :: joined (word .«of») [identifier name] (items.written 0) ++ [colon]

/-- An import, where something stands between its first word and its source. -/
def writtenImport (imported : List Written) (source : String) : List Written :=
  word .«import» :: .blank :: joined (word .«from») imported [Written.string source.toList]

def MarkupBlock.written (layout : Layout) (b : MarkupBlock) : List Written :=
  (if layout.heading then [word .html, .blank] else []) ++
    (identifier b.name :: enclosed .paren (b.params.map Param.written)) ++
    (if b.events.isEmpty then []
      else [.blank, word .events, .blank] ++ listed (b.events.map fun e => [identifier e])) ++
    [colon]

/-! ## Outlines -/

/-- The text of a body that stands on the line of its element. -/
def Layout.inlineText? (layout : Layout) : List Statement → Option (List Segment)
  | [.text _ segments] => if layout.inline then some segments else none
  | _ => none

mutual

def Statement.outline (layout : Layout) : Statement → List Outline
  | .element _ name classes attributes body =>
    match layout.inlineText? body with
    | some segments =>
      [.line (writtenElement name classes attributes ++
        [.blank, Written.string (formatText segments)]) []]
    | none => [.line (writtenElement name classes attributes) (outlineAll layout body)]
  | .text _ segments => [.line [Written.string (formatText segments)] []]
  | .output _ value => [.line (equals :: .blank :: value.written 0) []]
  | .store _ name value => [.line (writtenBinding .store name value) []]
  | .binding _ name value => [.line (writtenBinding .«let» name value) []]
  | .link _ links => [.line (word .link :: .blank :: listed (links.map Link.written)) []]
  | .choice _ branches otherwise =>
    outlineBranches layout .«if» branches ++
      (match otherwise with
        | none => []
        | some body => [.line [word .«else», colon] (outlineAll layout body)])
  | .loop _ name items body => [.line (writtenLoop name items) (outlineAll layout body)]

def outlineAll (layout : Layout) : List Statement → List Outline
  | [] => []
  | s :: rest => s.outline layout ++ outlineAll layout rest

def outlineBranches (layout : Layout) (k : Keyword) : List (Expr × List Statement) → List Outline
  | [] => []
  | (condition, body) :: rest =>
    .line (writtenBranch k condition) (outlineAll layout body) ::
      outlineBranches layout .«elif» rest

end

/-- Style blocks are not written. -/
def Block.outline (layout : Layout) : Block → List Outline
  | .style _ => []
  | .markup b => [.line (b.written layout) (outlineAll layout b.body)]
  | .importModule name source _ => [.line (writtenImport [identifier name] source) []]
  | .importNames names source _ =>
    [.line (writtenImport (enclose .brace (listed (names.map ImportName.written))) source) []]

/-- The text of a template. -/
def Layout.text (layout : Layout) (blocks : List Block) : String :=
  String.ofList (Outline.charsAll layout.width 0 (blocks.flatMap (Block.outline layout)))

/-! ## Which blocks have a text -/

/-- A word that is not reserved. -/
def isName (word : String) : Bool := isWordText word && (Keyword.ofText? word).isNone

/-- At least one letter, digit or underscore. -/
def isPart (part : String) : Bool := !part.isEmpty && part.toList.all Lexeme.isNamePart

/-- A word and any number of parts after it, each with a dash in front. -/
def isDashedName (name : String) : Bool :=
  match Text.split '-' name with
  | [] => false
  | first :: parts => isWordText first && parts.all isPart

/-- An ASCII text in quotes, just as it stands in a source. -/
def isQuotedText (literal : String) : Bool :=
  match literal.toList with
  | [] => false
  | quote :: rest => (quote = '"' || quote = '\'') && isClosed quote rest && isAsciiText literal

def Param.isWritable (p : Param) : Bool := isName p.name && p.fallback.all isQuotedText

def ClassClause.isWritable (c : ClassClause) : Bool :=
  isDashedName c.name && c.condition.all Expr.isWritable

def attributeWritable (a : String × Expr) : Bool := isDashedName a.1 && a.2.isWritable

def LinkTarget.isWritable (t : LinkTarget) : Bool :=
  t.target.isWritable && t.value.all Expr.isWritable

def LinkEntry.isWritable (e : LinkEntry) : Bool :=
  isName e.member && e.filter.all Expr.isWritable && e.renamed.all isName

def Link.isWritable : Link → Bool
  | .single event filter target => isName event && filter.all Expr.isWritable && target.isWritable
  | .multi entries target => entries.all LinkEntry.isWritable && target.isWritable

def ImportName.isWritable (n : ImportName) : Bool := isName n.name && n.renamed.all isName

namespace Statement

mutual

/-- There is at least one link in a link statement and at least one branch in a choice. -/
def isWritable : Statement → Bool
  | .element _ name classes attributes body =>
    isName name && classes.all ClassClause.isWritable && attributes.all attributeWritable &&
      bodyWritable body
  | .text _ segments =>
    segmentsWritable segments && isStringText (Literal.quote (formatText segments))
  | .output _ value => value.isWritable
  | .store _ name value | .binding _ name value => isName name && value.isWritable
  | .link _ links => !links.isEmpty && links.all Link.isWritable
  | .choice _ branches otherwise =>
    !branches.isEmpty && branchesWritable branches &&
      (match otherwise with
        | none => true
        | some body => bodyWritable body)
  | .loop _ name items body => isName name && items.isWritable && bodyWritable body

def bodyWritable : List Statement → Bool
  | [] => true
  | s :: rest => s.isWritable && bodyWritable rest

def branchesWritable : List (Expr × List Statement) → Bool
  | [] => true
  | (condition, body) :: rest => condition.isWritable && bodyWritable body && branchesWritable rest

end

end Statement

/-- The bindings of a body have to stand where they may. -/
def MarkupBlock.isWritable (b : MarkupBlock) : Bool :=
  isName b.name && b.params.all Param.isWritable && b.events.all isName &&
    Statement.bodyWritable b.body && Statement.allPlaced .block b.body

def Block.isWritable : Block → Bool
  | .style _ => false
  | .markup b => b.isWritable
  | .importModule name source _ => isName name && isAsciiText source
  | .importNames names source _ => names.all ImportName.isWritable && isAsciiText source

/-! ## Blocks without their places -/

def Param.unplaced (p : Param) : Param := { p with position := {} }

def ClassClause.unplaced (c : ClassClause) : ClassClause := ⟨c.name, c.condition.map Expr.unplaced⟩

def unplacedAttribute (a : String × Expr) : String × Expr := (a.1, a.2.unplaced)

def LinkTarget.unplaced (t : LinkTarget) : LinkTarget :=
  ⟨t.target.unplaced, t.value.map Expr.unplaced⟩

def LinkEntry.unplaced (e : LinkEntry) : LinkEntry :=
  ⟨e.member, e.filter.map Expr.unplaced, e.renamed⟩

def Link.unplaced : Link → Link
  | .single event filter target => .single event (filter.map Expr.unplaced) target.unplaced
  | .multi entries target => .multi (entries.map LinkEntry.unplaced) target.unplaced

namespace Statement

mutual

def unplaced : Statement → Statement
  | .element _ name classes attributes body =>
    .element {} name (classes.map ClassClause.unplaced) (attributes.map unplacedAttribute)
      (unplacedBody body)
  | .text _ segments => .text {} (unplacedSegments segments)
  | .output _ value => .output {} value.unplaced
  | .store _ name value => .store {} name value.unplaced
  | .binding _ name value => .binding {} name value.unplaced
  | .link _ links => .link {} (links.map Link.unplaced)
  | .choice _ branches otherwise =>
    .choice {} (unplacedBranches branches) (match otherwise with
      | none => none
      | some body => some (unplacedBody body))
  | .loop _ name items body => .loop {} name items.unplaced (unplacedBody body)

def unplacedBody : List Statement → List Statement
  | [] => []
  | s :: rest => s.unplaced :: unplacedBody rest

def unplacedBranches : List (Expr × List Statement) → List (Expr × List Statement)
  | [] => []
  | (condition, body) :: rest => (condition.unplaced, unplacedBody body) :: unplacedBranches rest

end

end Statement

def MarkupBlock.unplaced (b : MarkupBlock) : MarkupBlock :=
  ⟨b.name, b.params.map Param.unplaced, b.events, Statement.unplacedBody b.body, {}⟩

def Block.unplaced : Block → Block
  | .style b => .style b
  | .markup b => .markup b.unplaced
  | .importModule name source _ => .importModule name source {}
  | .importNames names source _ => .importNames names source {}

end Stencil
