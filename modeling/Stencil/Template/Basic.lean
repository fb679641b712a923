import Stencil.Markup.Basic

/-! Templates: imports, style blocks and markup blocks in the order of the source. Every selector of a
scoped template asks for the class of its block. -/
namespace Stencil

structure ImportName where
  name : String
  renamed : Option String := none
deriving DecidableEq, Repr

/-- The name that an import is bound to. -/
def ImportName.localName (n : ImportName) : String := n.renamed.getD n.name

inductive Block where
  | style (block : StyleBlock)
  | markup (block : MarkupBlock)
  | importModule (name source : String) (position : Position)
  | importNames (names : List ImportName) (source : String) (position : Position)

structure Template where
  blocks : List Block
  position : Position := {}

/-- A selector that has the class in front already stays as it is. -/
def Selector.scopedTo (name : String) (s : Selector) : Selector :=
  if s.classes.head? = some name then s else { s with classes := name :: s.classes }

def Rule.scopedTo (name : String) (r : Rule) : Rule :=
  { r with selectors := r.selectors.map (Selector.scopedTo name) }

def StyleBlock.scopedTo (name : String) (b : StyleBlock) : StyleBlock :=
  { b with rules := b.rules.map (Rule.scopedTo name) }

def Block.scopedTo (name : String) : Block → Block
  | .style b => .style (b.scopedTo name)
  | b => b

namespace Template

def styleBlocks (t : Template) : List StyleBlock :=
  t.blocks.filterMap fun
    | .style b => some b
    | _ => none

def rules (t : Template) : List Rule := t.styleBlocks.flatMap (·.rules)

def scopedTo (name : String) (t : Template) : Template :=
  { t with blocks := t.blocks.map (Block.scopedTo name) }

/-- Elements that a selector names without a class, each once. Markup gives them the class of the
block even if they have none of their own. -/
def bareElements (t : Template) : List String :=
  ((t.rules.flatMap (·.selectors)).filter Selector.isBare).map (·.element) |>.eraseDups

end Template
end Stencil
