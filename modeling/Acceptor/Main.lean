import Acceptor.CommandLine.Run

/-!
# The program

Matches words against automata loaded from a description or compiled from a pattern. This module
connects the pure command line to the files and streams of the system.
-/

namespace Acceptor

namespace CommandLine

/-- The reason for a failed access to a file. -/
def fileError : IO.Error → FileError
  | .noFileOrDirectory .. => .missing
  | .inappropriateType _ 20 _ => .notDirectory
  | .inappropriateType _ 21 _ => .isDirectory
  | .invalidArgument _ 36 _ => .nameTooLong
  | e => .other (toString e)

/-- An access to the file at a path with its failure as a value. A text that is no path is not
tried. -/
def attempt {α : Type} (path : String) (act : IO α) : IO (Except FileError α) := do
  match Path.ofText path with
  | .error e => return .error e
  | .ok _ =>
    try return .ok (← act)
    catch e => return .error (fileError e)

/-- Prints a prompt before each line of the input and its answer after it. -/
partial def converse (prompt : String) (answer : List Char → Option String) : IO Unit := do
  let output ← IO.getStdout
  output.putStr prompt
  output.flush
  let line ← (← IO.getStdin).getLine
  if line.isEmpty then return
  let text := line.toList.reverse.dropWhile (· == '\n')
  match answer (inputLine text.reverse) with
  | none => return
  | some reply =>
    output.putStr reply
    converse prompt answer

/-- The system as a host. No program that renders drawings is started. -/
def system : Host IO where
  read path := attempt path (IO.FS.readBinFile path)
  write path text := attempt path (IO.FS.writeFile path text)
  render _ _ := return .error .missing
  print := IO.print
  converse := converse

/-- What the program says about its options. -/
def usage : String :=
  "Matches words against finite automata loaded from a file or a regular expression

    -p, --path <FILE>     Automaton description to load, takes precedence over --regex
    -e, --regex <REGEX>   Regular expression to compile
    -w, --word <WORD>     Word to match against the automaton
    -t, --type <TYPE>     Representation to use: dfa, nfa or enfa
    -c, --check           Only check the source for errors
    -i, --interactive     Read words from the input until q
    -r, --repr            Print the loaded automaton
    -d, --dot <FILE>      Write the automaton graph in dot format
    -g, --png <FILE>      Render the automaton graph to a picture
    -h, --help            Print this text
    -V, --version         Print the version
"

/-- The version of the program. -/
def version : String := "acceptor 0.1.0\n"

/-- The complaint about arguments. -/
def complaint : UsageError → String
  | .unknownArgument => "Found an argument which was not expected. See --help."
  | .emptyValue => "An option needs a value but none was supplied. See --help."
  | .multipleUsage => "An option or flag was provided more than once. See --help."
  | .helpWanted => usage
  | .versionWanted => version

/-- Prints an error on a line of its own and gives the exit code for it. -/
def fail (message : String) : IO UInt32 := do
  IO.eprint message
  unless message.endsWith "\n" do IO.eprint "\n"
  return 1

/-- Runs the program on its arguments and gives the exit code. -/
def program (args : List String) : IO UInt32 := do
  match Uses.ofArguments args with
  | .error .helpWanted => IO.print usage; return 0
  | .error .versionWanted => IO.print version; return 0
  | .error e => fail (complaint e)
  | .ok uses =>
    match Options.ofUses uses with
    | .error e => fail e.message
    | .ok options =>
      match ← (Run.run system options).run with
      | .error message => fail message
      | .ok () => return 0

end CommandLine

end Acceptor

/-- The entry point. -/
def main (args : List String) : IO UInt32 := Acceptor.CommandLine.program args
