import Acceptor.Automaton
import Acceptor.Description
import Acceptor.FileTree.Error

/-!
# Loading automata

An automaton is loaded from the text of a pattern, from a description, or from the bytes of a file
that holds a description. A pattern makes a deterministic automaton and a description one of its
declared kind, unless another kind is requested.
-/

namespace Acceptor

/-- Why an automaton cannot be loaded. -/
inductive LoadError where
  /-- The text is no pattern. -/
  | pattern (e : NothingToRepeat)
  /-- The text is no description. -/
  | description (e : Description.Error)
  /-- The machine does not fit its kind. -/
  | machine (f : Fault)
  /-- The file cannot be read. -/
  | file (path : String) (e : FileError)
  deriving DecidableEq

namespace LoadError

/-- The complaint about what cannot be loaded. There is none where a machine runs into an id that is
no state. -/
def message? : LoadError → Option String
  | pattern e => some e.message
  | description e => some e.cause.message
  | machine (.defect d) => some d.message
  | machine .noState => none
  | file path e => some s!"Can't read {path}: {e.message}"

end LoadError

namespace Automaton

/-- The automaton of a pattern, deterministic unless another kind is requested. -/
def ofPatternText (text : String) (kind : Option Kind) : Except LoadError Automaton :=
  match Pattern.parse text with
  | .error e => .error (.pattern e)
  | .ok p => (ofPattern (kind.getD .dfa) p).mapError .machine

/-- The automaton of the declared kind. -/
def ofDescription (d : Description) : Except LoadError Automaton :=
  (ofMachine d.kind d.machine).mapError fun e => .machine (.defect e)

/-- The automaton of a description, of its declared kind unless another is requested. -/
def ofDescriptionText (text : String) (kind : Option Kind) : Except LoadError Automaton := do
  let d ← (Description.read text).mapError .description
  let a ← ofDescription d
  (a.convert (kind.getD d.kind)).mapError .machine

end Automaton

/-- The text of a file at a path, given its bytes. -/
def fileText (path : String) (bytes : Except FileError ByteArray) : Except LoadError String :=
  match bytes with
  | .error e => .error (.file path e)
  | .ok bytes =>
    match String.fromUTF8? bytes with
    | some text => .ok text
    | none => .error (.file path .notText)

namespace Automaton

/-- The automaton described in a file, given its bytes. -/
def ofFile (path : String) (bytes : Except FileError ByteArray) (kind : Option Kind) :
    Except LoadError Automaton := do
  ofDescriptionText (← fileText path bytes) kind

end Automaton

end Acceptor
