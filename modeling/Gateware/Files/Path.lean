/- Paths as texts. Parts are separated by slashes; empty parts and single dots do
   not count, except for a single dot at the very beginning. -/
namespace Gateware.Path

/-- Cuts off, from the end of a reversed path, slashes and single dots that
follow a slash. -/
def dropTrailing : List Char → List Char
  | '/' :: rest => dropTrailing rest
  | '.' :: '/' :: rest => dropTrailing ('/' :: rest)
  | rest => rest

structure Parts where
  /-- All up to and including the slash before the file name. -/
  parent : List Char
  /-- The file name, which is not empty and no run of one or two dots. -/
  name : List Char
  /-- What follows the file name. -/
  trailing : List Char
  deriving DecidableEq, Repr

/-- The parts of a path, if it has a file name. -/
def parts? (path : String) : Option Parts :=
  let reversed := path.toList.reverse
  let cut := dropTrailing reversed
  let name := (cut.takeWhile (· ≠ '/')).reverse
  if name = [] ∨ name = ['.'] ∨ name = ['.', '.'] then none
  else
    let parent := (cut.dropWhile (· ≠ '/')).reverse
    some ⟨parent, name, (reversed.take (reversed.length - cut.length)).reverse⟩

/-- A file name up to its last dot and after it. A dot at the beginning does not
count as the last one. -/
def splitName (name : List Char) : List Char × Option (List Char) :=
  let extension := (name.reverse.takeWhile (· ≠ '.')).reverse
  match (name.reverse.dropWhile (· ≠ '.')).tail.reverse with
  | [] => (name, none)
  | stem => (stem, some extension)

/-- A path with its extension replaced, or one added. A path without a file name
stays as it is. The old extension goes first: a name of two dots and an extension,
with nothing after it, then is the parent directory, which takes no extension. -/
def withExtension (path extension : String) : String :=
  match parts? path with
  | none => path
  | some ⟨parent, name, trailing⟩ =>
    let (stem, _) := splitName name
    if stem = ['.'] ∧ trailing = [] then String.ofList (parent ++ ['.', '.'])
    else String.ofList (parent ++ stem ++ ['.'] ++ extension.toList)

/-- The parts of a path that name something, and whether a slash ends it. -/
def components (path : String) : List String × Bool :=
  ((path.splitOn "/").filter (· ≠ ""), path.endsWith "/")

def isAbsolute (path : String) : Bool :=
  path.startsWith "/"

end Gateware.Path
