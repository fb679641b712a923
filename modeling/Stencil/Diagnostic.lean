/-! Places in a source and messages about them. -/
namespace Stencil

/-- Lines and columns count from one; a column is one grapheme cluster. Without a file name the
place lies in an expression that was read on its own. -/
structure Position where
  file : String := ""
  line : Int := 0
  column : Int := 0
deriving DecidableEq, Repr, Inhabited

def Position.text (p : Position) : String :=
  let place := s!"{p.line}:{p.column}"
  if p.file.isEmpty then place else p.file ++ ":" ++ place

/-- A message at a position; a hint that is not empty suggests a remedy. -/
structure Diagnostic where
  position : Position
  message : String
  hint : String := ""
deriving DecidableEq, Repr

def Diagnostic.text (d : Diagnostic) : String :=
  let line := d.position.text ++ ": error: " ++ d.message
  if d.hint.isEmpty then line else line ++ " (" ++ d.hint ++ ")"

/-- Diagnostics in the order in which they were found. -/
structure Report where
  entries : List Diagnostic := []
deriving DecidableEq, Repr

namespace Report

def add (r : Report) (d : Diagnostic) : Report := ⟨r.entries ++ [d]⟩

def size (r : Report) : Nat := r.entries.length

def first? (r : Report) : Option Diagnostic := r.entries.head?

def isFaulty (r : Report) : Bool := !r.entries.isEmpty

/-- One diagnostic a line. -/
def text (r : Report) : String := "\n".intercalate (r.entries.map Diagnostic.text)

end Report
end Stencil
