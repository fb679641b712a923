import Stencil.Text.BreakClass

/-! Extended grapheme clusters: what a reader sees as one character. A text is cut between two
characters unless a rule joins them; the rules look back no further than a `BreakContext` tells. -/
namespace Stencil.Text

/-- What the text before a place ends in, as far as the joining rules ask. -/
inductive BreakContext where
  | other | carriageReturn | control | prepend | pictograph | joinedPictograph
  | oddRegional | evenRegional | hangulL | hangulV | hangulT
deriving DecidableEq, Repr

namespace BreakContext

/-- Whether a character of the class continues the cluster that ends here. -/
def joins : BreakContext → BreakClass → Bool
  | .carriageReturn, .lineFeed => true
  | .carriageReturn, _ => false
  | .control, _ => false
  | _, .carriageReturn | _, .lineFeed | _, .control => false
  | _, .extend | _, .joiner | _, .spacingMark => true
  | .prepend, _ => true
  | .hangulL, .hangulL | .hangulL, .hangulV | .hangulL, .hangulLV | .hangulL, .hangulLVT => true
  | .hangulV, .hangulV | .hangulV, .hangulT => true
  | .hangulT, .hangulT => true
  | .joinedPictograph, .pictograph => true
  | .oddRegional, .regional => true
  | _, _ => false

def next : BreakContext → BreakClass → BreakContext
  | .pictograph, .extend => .pictograph
  | .pictograph, .joiner => .joinedPictograph
  | .oddRegional, .regional => .evenRegional
  | _, .other | _, .extend | _, .joiner | _, .spacingMark => .other
  | _, .carriageReturn => .carriageReturn
  | _, .lineFeed | _, .control => .control
  | _, .prepend => .prepend
  | _, .regional => .oddRegional
  | _, .pictograph => .pictograph
  | _, .hangulL => .hangulL
  | _, .hangulV | _, .hangulLV => .hangulV
  | _, .hangulT | _, .hangulLVT => .hangulT

end BreakContext

/-- The number of bytes of characters in UTF-8. -/
def byteSize : List Char → Nat
  | [] => 0
  | c :: cs => c.utf8Size + byteSize cs

/-- A cluster is never empty: it has a first character and those joined to it. -/
structure Cluster where
  first : Char
  joined : List Char
deriving DecidableEq, Repr

namespace Cluster

def chars (k : Cluster) : List Char := k.first :: k.joined

def text (ks : List Cluster) : String := String.ofList (ks.flatMap chars)

/-- Length in UTF-8 bytes. -/
def size (k : Cluster) : Nat := byteSize k.chars

/-- The character that decides how the cluster is read: both line breaks count as a line feed. -/
def lead (k : Cluster) : Char := if k.chars = ['\r', '\n'] then '\n' else k.first

def segmentFrom (before : BreakContext) : List Char → List Cluster
  | [] => []
  | c :: cs =>
    let here := before.next (.of c)
    match cs, segmentFrom here cs with
    | d :: _, k :: ks =>
      if here.joins (.of d) then ⟨c, k.chars⟩ :: ks else ⟨c, []⟩ :: k :: ks
    | _, ks => ⟨c, []⟩ :: ks

/-- The clusters of a text, in order. -/
def segment (source : String) : List Cluster := segmentFrom .other source.toList

end Cluster
end Stencil.Text
