import Acceptor.FileTree
import Acceptor.Text.Cut

/-!
# Hosts

A host is what a run of the program acts on: files, output, and an input of lines. `World` is a host
made of values, a tree of files with an input and the output so far, on which runs can be reasoned
about.

## Implementation notes

A conversation prints a prompt, reads a line and answers it, until a line has no answer or the input
ends. Carriage returns at the end of a line do not belong to it.
-/

namespace Acceptor

namespace CommandLine

/-- The actions of a host. -/
structure Host (m : Type → Type) where
  /-- The bytes of a file. -/
  read : String → m (Except FileError ByteArray)
  /-- Makes a text the content of a file. -/
  write : String → String → m (Except FileError Unit)
  /-- Renders a drawing into a file. -/
  render : String → String → m (Except FileError Unit)
  /-- Prints a text. -/
  print : String → m Unit
  /-- Prints a prompt before each line of the input and its answer after it. -/
  converse : String → (List Char → Option String) → m Unit

/-- A line of the input without the carriage returns at its end. -/
def inputLine (line : List Char) : List Char := (line.reverse.dropWhile (· == '\r')).reverse

/-- What is printed one after the other in a conversation over lines. -/
def exchange (prompt : String) (answer : List Char → Option String) :
    List (List Char) → List String
  | [] => [prompt]
  | line :: lines =>
    match answer (inputLine line) with
    | none => [prompt]
    | some text => prompt :: text :: exchange prompt answer lines

/-- The text of a conversation over lines. -/
def transcript (prompt : String) (answer : List Char → Option String) (lines : List (List Char)) :
    String :=
  .join (exchange prompt answer lines)

/-! ### A host of values -/

/-- A tree of files with a working directory, an input, and what has been printed. -/
structure World where
  /-- The files. -/
  tree : FileTree
  /-- The directory in which paths start. -/
  directory : Place
  /-- The text of the input. -/
  input : String
  /-- What has been printed. -/
  output : String

namespace World

/-- The directories of a common system, each by the names on the way to it. -/
def standardDirectories : List (List String) :=
  ["bin", "boot", "dev", "etc", "home", "lib", "media", "mnt", "opt", "proc", "root", "run", "sbin",
      "srv", "sys", "tmp", "usr", "var"].map ([·]) ++
    ["bin", "lib", "local", "sbin", "share"].map (["usr", ·]) ++
    ["cache", "lib", "log", "opt", "spool", "tmp"].map (["var", ·])

/-- The place of a path whose names are given. -/
def place (names : List String) : Place := names.map String.toList

/-- The working directory of a world that is made of files. Its name is empty, so that no path can
spell it and no path from outside leads to it. -/
def workplace : Place := place ["tmp", ""]

/-- The world in whose working directory there are files of these names, and nothing else. The
directories of a common system and its empty file lie around it. -/
def ofFiles (files : List (String × ByteArray)) (input : String) : World where
  tree :=
    { directories := workplace :: standardDirectories.map place
      files := (place ["dev", "null"], .empty) ::
        files.map fun f => (workplace ++ [f.1.toList], f.2) }
  directory := workplace
  input := input
  output := ""

/-- The world after a text is printed. -/
def print (w : World) (text : String) : World := { w with output := w.output ++ text }

/-- A world as a host. Nothing can be rendered in it. -/
def host : Host (StateM World) where
  read path := return (← get).tree.read (← get).directory path
  write path text := do
    let w ← get
    match w.tree.write w.directory path text.toUTF8 with
    | .ok tree => set { w with tree }; return .ok ()
    | .error e => return .error e
  render _ _ := return .error .missing
  print text := modify (·.print text)
  converse prompt answer :=
    modify fun w => w.print (transcript prompt answer (Text.lines w.input.toList))

end World

end CommandLine

end Acceptor
