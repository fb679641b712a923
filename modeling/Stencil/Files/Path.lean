import Stencil.Text.Basic

/-! Paths as texts with slashes: their parts, their last element and its extension. -/
namespace Stencil.Path

def isRooted (path : String) : Bool := path.toList.head? = some '/'

/-- The parts of a path without its extension, and the extension: what follows the last dot of the
last element, dot included. -/
def splitExtension (path : String) : String × String :=
  let back := path.toList.reverse
  let tail := back.takeWhile fun c => c ≠ '.' && c ≠ '/'
  match back.drop tail.length with
  | '.' :: front => (String.ofList front.reverse, String.ofList ('.' :: tail.reverse))
  | _ => (path, "")

def stem (path : String) : String := (splitExtension path).1

/-- The last element; slashes after it do not count. -/
def base (path : String) : String :=
  if path.isEmpty then "."
  else
    let back := path.toList.reverse.dropWhile (· = '/')
    if back.isEmpty then "/" else String.ofList (back.takeWhile (· ≠ '/')).reverse

/-- Drops a text at the end, if it is there. -/
def dropSuffix (path suffix : String) : String :=
  if suffix.toList.isSuffixOf path.toList then
    String.ofList (path.toList.take (path.toList.length - suffix.toList.length))
  else path

def hasSuffix (path suffix : String) : Bool := suffix.toList.isSuffixOf path.toList

/-- Resolves the dots of a path, given what is before them with the last part first. Dots that lead
out of the start stay, unless the path starts at the root. -/
def resolve (rooted : Bool) : List String → List String → List String
  | before, [] => before.reverse
  | before, part :: parts =>
    if part = "" || part = "." then resolve rooted before parts
    else if part = ".." then
      match before with
      | last :: rest =>
        if last = ".." then resolve rooted (".." :: before) parts else resolve rooted rest parts
      | [] => resolve rooted (if rooted then [] else [".."]) parts
    else resolve rooted (part :: before) parts

/-- The shortest path that leads to the same place. -/
def clean (path : String) : String :=
  let rooted := isRooted path
  let joined := "/".intercalate (resolve rooted [] (Text.split '/' path))
  if rooted then "/" ++ joined else if joined.isEmpty then "." else joined

def join (directory : String) (names : List String) : String :=
  clean ("/".intercalate (directory :: names))

/-- The directory that a path leads into. -/
def parent (path : String) : String :=
  clean (String.ofList (path.toList.reverse.dropWhile (· ≠ '/')).reverse)

example : (base "ui/a.mft", stem "ui.x/a", stem "a.b.mft") = ("a.mft", "ui.x/a", "a.b") := by decide
example : (clean "./ui//deep/../b", parent "logs/x", parent "x") = ("ui/b", "logs", ".") := by decide

end Stencil.Path
