import Stencil.Markup.Lowering
import Stencil.Template.Basic

/-! The code of a template, and what may be put around it: a module definition that names its
imports and exports, and statements that load a style sheet. -/
namespace Stencil

namespace Template

def markupBlocks (t : Template) : List MarkupBlock :=
  t.blocks.filterMap fun
    | .markup b => some b
    | _ => none

/-- One function for each markup block. -/
def lower (scope : BlockScope) (t : Template) : Script.Code :=
  t.markupBlocks.map (MarkupBlock.lower scope)

end Template

/-- The imports of a template: the modules to load, the parameters they are passed as, and the
locals for imported names. A module that is imported by names is loaded once. -/
structure Imports where
  modules : List String := []
  params : List String := []
  locals : Script.Code := []
  named : List (String × String) := []

namespace Imports

def load (source param : String) (i : Imports) : Imports :=
  { i with modules := i.modules ++ [source], params := i.params ++ [param] }

def bindNames (param : String) (names : List ImportName) (i : Imports) : Imports :=
  { i with locals := i.locals ++
      names.map fun n => .var n.localName (.attribute (.name param) n.name) }

def add (i : Imports) : Block → Imports
  | .importModule name source _ => i.load source name
  | .importNames names source _ =>
    match i.named.lookup source with
    | some param => i.bindNames param names
    | none =>
      let param := s!"_mod_{i.named.length}"
      ({ i with named := i.named ++ [(source, param)] }.load source param).bindNames param names
  | _ => i

def ofTemplate (t : Template) : Imports := t.blocks.foldl add {}

end Imports

namespace Script

def exportStmt (b : MarkupBlock) : Stmt :=
  .expr (.assign (.name "exports") b.name (.name b.name))

/-- A module definition around code; a name that is empty is left out. -/
def Code.asModule (t : Template) (name : String) (code : Code) : Code :=
  let imports := Imports.ofTemplate t
  let modules := ["require", "exports"] ++ imports.modules
  let params := ["require", "exports"] ++ imports.params
  let body := imports.locals ++ code ++ t.markupBlocks.map exportStmt
  [.expr (.call (.name "define")
    ((if name.isEmpty then [] else [.string name]) ++
      [.list (modules.map .string), .function "" (params.map (·, none)) body]))]

/-- Statements in front of code that add a style sheet to the document. -/
def Code.withStyle (css : String) (code : Code) : Code :=
  let style : Expr := .name "_style"
  let document : Expr := .name "document"
  [.var "_style" (.call (document.dot ["createElement"]) [.string "style"]),
    .expr (.call (style.dot ["appendChild"])
      [.call (document.dot ["createTextNode"]) [.string css]]),
    .expr (.call (document.dot ["head", "appendChild"]) [style])] ++ code

end Script
end Stencil
