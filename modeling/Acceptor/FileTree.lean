import Acceptor.FileTree.Path

/-!
# Trees of files

A tree of directories and files, in which paths are followed name by name. A place in the tree is
the row of names on the way to it from the root.

## Main definitions

* `FileTree.read`, `FileTree.write`: the content of the file at a path, and a file written there.
* `FileTree.listing`: the files of a directory.

## Implementation notes

A name is looked up only in a directory, so a path fails at the first name that leads nowhere or on
to a file. The last name alone may name a file, or nothing if it is to be written.
-/

namespace Acceptor

/-- The names on the way from the root. -/
abbrev Place := List (List Char)

/-- What stands at a place of a tree. -/
inductive Entry where
  /-- A directory. -/
  | directory
  /-- A file with its content. -/
  | file (bytes : ByteArray)

/-- Directories and files. The root is a directory of every tree. -/
structure FileTree where
  /-- The places of the directories apart from the root. -/
  directories : List Place
  /-- The places of the files with their contents. -/
  files : List (Place × ByteArray)

namespace FileTree

/-- What stands at a place. -/
def find? (t : FileTree) (p : Place) : Option Entry :=
  if p = [] ∨ p ∈ t.directories then some .directory else (t.files.lookup p).map .file

/-- The tree with a file put at a place. -/
def put (t : FileTree) (p : Place) (bytes : ByteArray) : FileTree :=
  { t with files := (p, bytes) :: t.files.filter (·.1 ≠ p) }

/-! ### Following paths -/

/-- The place that a name stands for in a directory. Nothing is above the root. -/
def step (d : Place) (name : List Char) : Except FileError Place :=
  if name = Path.here then .ok d
  else if name = Path.above then .ok d.dropLast
  else if Path.nameLength < Path.bytes name then .error .nameTooLong
  else .ok (d ++ [name])

/-- The directory that a name leads to from a directory. -/
def enter (t : FileTree) (d : Place) (name : List Char) : Except FileError Place := do
  let p ← step d name
  match t.find? p with
  | some .directory => return p
  | some (.file _) => throw .notDirectory
  | none => throw .missing

/-- The directory that names lead to from a directory. -/
def walk (t : FileTree) (d : Place) (names : List (List Char)) : Except FileError Place :=
  names.foldlM t.enter d

/-- The directory that a path starts at, given the working directory. -/
def start (d : Place) (p : Path) : Place := if p.absolute then [] else d

/-- The content of the file at a path, given the working directory. -/
def read (t : FileTree) (d : Place) (path : String) : Except FileError ByteArray := do
  let path ← Path.ofText path
  match path.names.getLast? with
  | none => throw .isDirectory
  | some name =>
    let d ← t.walk (start d path) path.names.dropLast
    match t.find? (← step d name) with
    | none => throw .missing
    | some .directory => throw .isDirectory
    | some (.file bytes) => if path.slashed then throw .notDirectory else return bytes

/-- The tree with a file written to a path, given the working directory. -/
def write (t : FileTree) (d : Place) (path : String) (bytes : ByteArray) :
    Except FileError FileTree := do
  let path ← Path.ofText path
  match path.names.getLast? with
  | none => throw .isDirectory
  | some name =>
    let d ← t.walk (start d path) path.names.dropLast
    if path.slashed then throw .isDirectory
    let p ← step d name
    match t.find? p with
    | some .directory => throw .isDirectory
    | _ => return t.put p bytes

/-- The files of a directory by name. -/
def listing (t : FileTree) (d : Place) : List (String × ByteArray) :=
  t.files.filterMap fun f =>
    match f.1.getLast? with
    | some name => if f.1 = d ++ [name] then some (.ofList name, f.2) else none
    | none => none

end FileTree

end Acceptor
