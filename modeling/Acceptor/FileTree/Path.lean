import Acceptor.FileTree.Error
import Acceptor.Text.Cut

/-!
# Paths

A path is a row of names with slashes between them. It starts at the root if a slash comes first and
at the working directory if not, several slashes count as one, and a slash at the end asks for a
directory.

## Main definitions

* `Path.ofText`: the path of a text, if the system takes the text for one.
-/

namespace Acceptor

/-- A path as the system reads it. -/
structure Path where
  /-- Whether it starts at the root. -/
  absolute : Bool
  /-- The names on the way. -/
  names : List (List Char)
  /-- Whether a slash follows the last name. -/
  slashed : Bool
  deriving DecidableEq

namespace Path

/-- The number of bytes that a path is shorter than. -/
def lengthBound : Nat := 4096

/-- The number of bytes of the longest name. -/
def nameLength : Nat := 255

/-- The name of the directory that a name is looked up in. -/
def here : List Char := ['.']

/-- The name of the directory above. -/
def above : List Char := ['.', '.']

/-- The number of bytes of a name. -/
def bytes (name : List Char) : Nat := (String.ofList name).utf8ByteSize

/-- The path of a text. A text with a null character, an empty one and one that is too long are
none. -/
def ofText (s : String) : Except FileError Path :=
  let cs := s.toList
  let pieces := Text.cut '/' cs
  if Char.ofNat 0 ∈ cs then .error .nulInPath
  else if lengthBound ≤ bytes cs then .error .nameTooLong
  else if cs = [] then .error .missing
  else .ok
    { absolute := pieces.head? == some []
      names := pieces.filter (· ≠ [])
      slashed := pieces.getLast? == some [] }

end Path

end Acceptor
