import Stencil.Files.Path
import Stencil.Text.Basic

/-! The files of a working directory as a value. -/
namespace Stencil

/-- A place: the names on the way to it from the working directory. A place elsewhere starts with
dots that lead up, or with the root. -/
abbrev Location := List String

/-- The order of a walk: name by name, a directory's content at the place of its name. -/
def Location.before : Location → Location → Bool
  | [], [] => false
  | [], _ :: _ => true
  | _ :: _, [] => false
  | a :: as, b :: bs => if a = b then Location.before as bs else decide (a < b)

/-- The working directory, those above it and the root, which are there whatever they hold. -/
def Location.isBase (place : Location) : Bool := place.all (· = "..") || place = ["/"]

/-- Where a path starts. -/
def Location.startOf (path : String) : Location := if Path.isRooted path then ["/"] else []

/-- The place of a path whose directories all exist. -/
def Location.ofPath (path : String) : Location :=
  startOf path ++ Path.resolve (Path.isRooted path) [] (Text.split '/' path)

inductive PathError where
  | missing | notDirectory | isDirectory | tooLong | invalid
deriving DecidableEq, Repr

def PathError.message : PathError → String
  | .missing => "no such file or directory"
  | .notDirectory => "not a directory"
  | .isDirectory => "is a directory"
  | .tooLong => "file name too long"
  | .invalid => "invalid argument"

/-- A name has at most 255 bytes. -/
def Path.isLongName (name : String) : Bool := name.utf8ByteSize > 255

/-- Why a text is no path: it has a zero character, nothing or more than 4095 bytes. -/
def Path.error? (path : String) : Option PathError :=
  if path.toList.contains '\x00' then some .invalid
  else if path.isEmpty then some .missing
  else if path.utf8ByteSize > 4095 then some .tooLong
  else none

/-- An operation on a path that failed. -/
structure PathFault where
  operation : String
  path : String
  error : PathError
deriving DecidableEq, Repr

def PathFault.message (f : PathFault) : String :=
  f.operation ++ " " ++ f.path ++ ": " ++ f.error.message

inductive Node where
  | file (content : ByteArray)
  | directory
deriving DecidableEq

/-- The contents of the files in the order of a walk, and the directories besides those that hold a file. -/
structure FileSet where
  files : List (Location × ByteArray) := []
  directories : List Location := []
deriving DecidableEq

namespace FileSet

def isDirectory (fs : FileSet) (place : Location) : Bool :=
  place.isBase || fs.directories.any place.isPrefixOf ||
    fs.files.any fun f => place.isPrefixOf f.1 && place ≠ f.1

def node? (fs : FileSet) (place : Location) : Option Node :=
  match fs.files.lookup place with
  | some content => some (.file content)
  | none => if fs.isDirectory place then some .directory else none

def putIn (place : Location) (content : ByteArray) :
    List (Location × ByteArray) → List (Location × ByteArray)
  | [] => [(place, content)]
  | (other, old) :: rest =>
    if other = place then (place, content) :: rest
    else if place.before other then (place, content) :: (other, old) :: rest
    else (other, old) :: putIn place content rest

def put (fs : FileSet) (place : Location) (content : ByteArray) : FileSet :=
  { fs with files := putIn place content fs.files }

/-- Follows the parts of a path from a place on. -/
def follow (fs : FileSet) : Location → List String → Except PathError Location
  | place, [] => .ok place
  | place, part :: parts =>
    match fs.node? place with
    | none => .error .missing
    | some (.file _) => .error .notDirectory
    | some .directory =>
      if part = "" || part = "." then follow fs place parts
      else if part = ".." then
        if place = ["/"] then follow fs place parts
        else if place.isBase then follow fs (place ++ [part]) parts
        else follow fs place.dropLast parts
      else if Path.isLongName part then .error .tooLong
      else follow fs (place ++ [part]) parts

/-- The place that a path leads to, which need not exist. -/
def locate (fs : FileSet) (path : String) : Except PathError Location :=
  match Path.error? path with
  | some e => .error e
  | none => follow fs (Location.startOf path) (Text.split '/' path)

def look (fs : FileSet) (path : String) : Except PathError (Location × Node) := do
  let place ← fs.locate path
  match fs.node? place with
  | some node => return (place, node)
  | none => throw .missing

def read (fs : FileSet) (path : String) : Except PathFault ByteArray :=
  match fs.look path with
  | .error e => .error ⟨"open", path, e⟩
  | .ok (_, .directory) => .error ⟨"read", path, .isDirectory⟩
  | .ok (_, .file content) => .ok content

/-- The place of a file to write, whose directory must exist. -/
def locateFile (fs : FileSet) (path : String) : Except PathError Location :=
  let parts := Text.split '/' path
  let back := parts.reverse.dropWhile (· = "")
  match Path.error? path, back with
  | some e, _ => .error e
  | none, [] => .error .isDirectory
  | none, name :: before => do
    let place ← follow fs (Location.startOf path) (before.reverse ++ ["."])
    if back.length ≠ parts.length || name = "." || name = ".." then throw .isDirectory
    else if Path.isLongName name then throw .tooLong
    else match fs.node? (place ++ [name]) with
      | some .directory => throw .isDirectory
      | _ => return place ++ [name]

/-- Replaces or makes a file. -/
def write (fs : FileSet) (path : String) (content : ByteArray) : Except PathFault FileSet :=
  match fs.locateFile path with
  | .ok place => .ok (fs.put place content)
  | .error e => .error ⟨"open", path, e⟩

/-- Adds to the end of a file, which is made if there is none. -/
def append (fs : FileSet) (path : String) (content : ByteArray) : Except PathError FileSet := do
  let place ← fs.locateFile path
  return fs.put place ((fs.files.lookup place).getD .empty ++ content)

/-- Makes a directory and those around it. -/
def makeDirectory (fs : FileSet) (path : String) : Except PathError FileSet :=
  let place := Location.ofPath path
  if place.any Path.isLongName then .error .tooLong
  else if fs.files.any fun f => f.1.isPrefixOf place then .error .notDirectory
  else if fs.isDirectory place then .ok fs
  else .ok { fs with directories := fs.directories ++ [place] }

/-- The files of a directory itself. -/
def listing (fs : FileSet) (place : Location) : List String :=
  fs.files.filterMap fun (file, _) =>
    if file.length = place.length + 1 && place.isPrefixOf file then file.getLast? else none

/-- The files at a place and below it, as the names from there on. -/
def under (fs : FileSet) (place : Location) : List Location :=
  (fs.files.filter fun f => place.isPrefixOf f.1).map fun f => f.1.drop place.length

def ofFiles (files : List (String × String)) (directories : List String) : FileSet :=
  files.foldl (fun fs (path, text) => fs.put (Location.ofPath path) text.toUTF8)
    { directories := directories.map Location.ofPath }

/-- The files that are new or have another content than before. -/
def changes (before after : FileSet) : List (Location × ByteArray) :=
  after.files.filter fun (place, content) => before.files.lookup place ≠ some content

example : (ofFiles [("b.x", ""), ("a/z", ""), ("a.x", "")] []).under [] = [["a", "z"], ["a.x"], ["b.x"]] := by
  decide

end FileSet
end Stencil
