import Gateware.Files.Path

/- Files in directories. A tree maps absolute paths, as lists of names, to files
   and directories, and has a working directory where relative paths begin. A path
   is followed name by name, and every name but the last has to lead to a
   directory. Names and whole paths have a greatest size. -/
namespace Gateware

inductive FileError where
  | notFound
  | notDirectory
  | isDirectory
  | nameTooLong
  | zeroInPath
  | notText
  | other (message : String)
  deriving DecidableEq, Repr

def FileError.message : FileError → String
  | .notFound => "No such file or directory (os error 2)"
  | .notDirectory => "Not a directory (os error 20)"
  | .isDirectory => "Is a directory (os error 21)"
  | .nameTooLong => "File name too long (os error 36)"
  | .zeroInPath => "file name contained an unexpected NUL byte"
  | .notText => "stream did not contain valid UTF-8"
  | .other message => message

/-- What a path leads to. -/
inductive FileTree.Node where
  | file (content : ByteArray)
  | directory

/-- The place of a file or directory: the names on the way from the root. -/
abbrev FileTree.Location := List String

/-- Files and directories, and the working directory. The root is a directory
without an entry of its own. -/
structure FileTree where
  entries : List (FileTree.Location × FileTree.Node)
  workingDirectory : FileTree.Location

namespace FileTree

def node? (t : FileTree) (l : Location) : Option Node :=
  match l with
  | [] => some .directory
  | l => t.entries.lookup l

def set (t : FileTree) (l : Location) (n : Node) : FileTree :=
  { t with entries := (l, n) :: t.entries.filter (·.1 ≠ l) }

def maxNameSize : Nat := 255

def maxPathSize : Nat := 4095

/-- What stands under a name in a directory. A name that is too long cannot be
looked up. -/
def entry? (t : FileTree) (parent : Location) (name : String) : Except FileError (Option Node) :=
  if maxNameSize < name.utf8ByteSize then .error .nameTooLong
  else .ok (t.node? (parent ++ [name]))

/-- Goes through one name, from a directory. -/
def step (t : FileTree) (l : Location) (name : String) : Except FileError Location :=
  if name = "." then .ok l
  else if name = ".." then .ok l.dropLast
  else do
    match ← t.entry? l name with
    | none => .error .notFound
    | some (.file _) => .error .notDirectory
    | some .directory => .ok (l ++ [name])

/-- Where a path leads: to a directory, or to a name in a directory. -/
inductive Target where
  | directory
  | entry (parent : Location) (name : String) (slash : Bool)

/-- Follows a path. A character zero and the size of the path are looked for before
any name is. -/
def follow (t : FileTree) (path : String) : Except FileError Target :=
  if '\x00' ∈ path.toList then .error .zeroInPath
  else if path = "" then .error .notFound
  else if maxPathSize < path.utf8ByteSize then .error .nameTooLong
  else
    let (names, slash) := Path.components path
    let start := if Path.isAbsolute path then [] else t.workingDirectory
    match names.getLast? with
    | none => .ok .directory
    | some name => do
      let parent ← names.dropLast.foldlM t.step start
      if name = "." ∨ name = ".." then return .directory
      return .entry parent name slash

def read (t : FileTree) (path : String) : Except FileError ByteArray := do
  match ← t.follow path with
  | .directory => .error .isDirectory
  | .entry parent name slash =>
    match ← t.entry? parent name with
    | none => .error .notFound
    | some .directory => .error .isDirectory
    | some (.file content) => if slash then .error .notDirectory else .ok content

/-- Replaces the content of a file, or makes one in an existing directory. A path
that ends in a slash is taken for a directory without looking its name up. -/
def write (t : FileTree) (path : String) (content : ByteArray) : Except FileError FileTree := do
  match ← t.follow path with
  | .directory => .error .isDirectory
  | .entry parent name slash =>
    if slash then .error .isDirectory
    else
      match ← t.entry? parent name with
      | some .directory => .error .isDirectory
      | _ => .ok (t.set (parent ++ [name]) (.file content))

def makeDirectory (t : FileTree) (l : Location) : FileTree :=
  if (t.node? l).isSome then t else t.set l .directory

/-- Makes the directories on the way from one that exists, name by name. -/
def makeDirectories (t : FileTree) (parent : Location) : (names : List String) → FileTree
  | [] => t
  | name :: names => (t.makeDirectory (parent ++ [name])).makeDirectories (parent ++ [name]) names

/-- A tree whose only entries are the directories on the way to its working
directory. -/
def empty (workingDirectory : Location) : FileTree :=
  makeDirectories ⟨[], workingDirectory⟩ [] workingDirectory

/-- Adds a file or directory below the working directory, with the directories on
the way to it. -/
def add (t : FileTree) (path : String) (n : Node) : FileTree :=
  let l := t.workingDirectory ++ (Path.components path).1
  (t.makeDirectories [] l.dropLast).set l n

/-- The path of a location below the working directory. -/
def relative? (t : FileTree) (l : Location) : Option String :=
  if t.workingDirectory.isPrefixOf l ∧ t.workingDirectory ≠ l then
    some (String.intercalate "/" (l.drop t.workingDirectory.length))
  else none

/-- Whether a file with the given content stands at a location. -/
def holds (t : FileTree) (l : Location) (content : ByteArray) : Bool :=
  match t.node? l with
  | some (.file found) => found.data == content.data
  | _ => false

/-- The files below the working directory that are new or have another content
than in an earlier tree. -/
def changedSince (t earlier : FileTree) : List (String × ByteArray) :=
  t.entries.filterMap fun (l, n) =>
    match n, t.relative? l with
    | .file content, some path => if earlier.holds l content then none else some (path, content)
    | _, _ => none

end FileTree

/-- A place where files can be read and written by path. -/
class Files (m : Type → Type) where
  read : String → m (Except FileError ByteArray)
  write : String → ByteArray → m (Except FileError Unit)

/-- Files kept in a tree as a value. -/
instance : Files (StateM FileTree) where
  read path t := (t.read path, t)
  write path content t :=
    match t.write path content with
    | .ok t' => (.ok (), t')
    | .error e => (.error e, t)

end Gateware
