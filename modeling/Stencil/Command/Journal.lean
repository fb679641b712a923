import Stencil.Files.FileSet

/-! A log of what a command does, kept in a file that is made with the first message. A message that
cannot be written is dropped. -/
namespace Stencil.Command

/-- Without a target nothing is logged. The stamp is the time that stands in front of a message. -/
structure Journal where
  target : Option String := none
  stamp : String := ""
deriving DecidableEq, Repr

namespace Journal

/-- The directory of the log is made if there is none. -/
def prepare (path : String) (fs : FileSet) : Except PathError FileSet :=
  let directory := Path.parent path
  if directory = "." then .ok fs else fs.makeDirectory directory

def log (j : Journal) (message : String) (fs : FileSet) : FileSet :=
  match j.target with
  | none => fs
  | some path =>
    match prepare path fs with
    | .error _ => fs
    | .ok fs =>
      match fs.append path ("[" ++ j.stamp ++ "] " ++ message ++ "\n").toUTF8 with
      | .ok fs => fs
      | .error _ => fs

def logAll (j : Journal) (messages : List String) (fs : FileSet) : FileSet :=
  messages.foldl (fun fs message => j.log message fs) fs

end Journal
end Stencil.Command
