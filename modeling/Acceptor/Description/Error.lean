import Acceptor.Description.Position
import Acceptor.Kind
import Acceptor.Machine

/-!
# Errors in descriptions

An error has a cause and, unless it concerns the description as a whole, a position.
-/

namespace Acceptor

namespace Description

/-- The parts of a header line after the kind. -/
inductive Field where
  /-- The number of state lines. -/
  | stateCount
  /-- The number of transition lines. -/
  | transitionCount
  /-- The list of initial states. -/
  | initialStates
  /-- The list of final states. -/
  | finalStates
  /-- The word of the alphabet's characters. -/
  | alphabet
  deriving DecidableEq

namespace Field

/-- The name of a part of the header. -/
def text : Field → String
  | stateCount => "state count"
  | transitionCount => "transition count"
  | initialStates => "initial states"
  | finalStates => "final states"
  | alphabet => "alphabet"

end Field

/-- A parenthesis that an index list lacks. -/
inductive Parenthesis where
  /-- The one before the list. -/
  | opening
  /-- The one after the list. -/
  | closing
  deriving DecidableEq

namespace Parenthesis

/-- The complaint about the parenthesis. -/
def text : Parenthesis → String
  | opening => "expected '('"
  | closing => "missing ')'"

end Parenthesis

/-- A state and the letters on which it has no edge. -/
structure Gap where
  /-- The name of the state. -/
  state : String
  /-- The letters. -/
  letters : List Char
  deriving DecidableEq

namespace Gap

/-- The complaint about the letters a state lacks. -/
def text (g : Gap) : String :=
  let missing := if g.letters.length = 1 then "the transition for the symbol"
    else "transitions for the symbols"
  s!"-> The state {g.state} is missing {missing} {Machine.braced (g.letters.map Char.toString)}."

end Gap

/-- What is wrong with a description. -/
inductive Cause where
  /-- The text is blank. -/
  | missingHeader
  /-- The header line ends too early. -/
  | missingField (field : Field)
  /-- The header names no kind. -/
  | unknownKind (word : String)
  /-- A text is no numeral. -/
  | invalidNumber (text : String)
  /-- An index list is not in parentheses. -/
  | malformedList (lacks : Parenthesis)
  /-- The list of initial states is empty. -/
  | noInitial
  /-- An index is not below the number of states. -/
  | outOfRange (index count : Nat)
  /-- The header line goes on after the alphabet. -/
  | trailingArguments (word : String)
  /-- A line has another number of words than it should. -/
  | argumentCount (expected found : Nat)
  /-- A line is no state line where one is due. -/
  | expectedState
  /-- A line is no transition line where one is due. -/
  | expectedTransition
  /-- A name is declared twice. -/
  | duplicateState (name : String)
  /-- A name is not declared. -/
  | undefinedState (name : String)
  /-- A label is neither one character nor the sign for the empty move. -/
  | invalidLabel (text : String)
  /-- A letter is not in the alphabet. -/
  | foreignLetter (c : Char)
  /-- There is an empty move in an automaton that allows none. -/
  | epsilonNotAllowed
  /-- A state of a deterministic automaton has two edges on a letter. -/
  | duplicateTransition (state : String) (c : Char)
  /-- The text ends before all states are declared. -/
  | missingStates (declared found : Nat)
  /-- The text ends before all transitions are given. -/
  | missingTransitions (declared found : Nat)
  /-- The text goes on after the last transition. -/
  | trailingContent
  /-- States of a deterministic automaton have no edge on some letters. -/
  | notSaturated (gaps : List Gap)
  deriving DecidableEq

namespace Cause

/-- The complaint about what is wrong. -/
def message : Cause → String
  | missingHeader => "Empty description, expected a header line"
  | missingField f => s!"Malformed header: missing {f.text}"
  | unknownKind w => UnknownKind.message ⟨w⟩
  | invalidNumber t => s!"Expected a non-negative number, got '{t}'"
  | malformedList p => s!"Malformed state index list: {p.text}"
  | noInitial => "At least one initial state is required"
  | outOfRange i n => s!"State index {i} is out of bounds of [0, {n})"
  | trailingArguments w => s!"Unexpected content '{w}' at the end of the line"
  | argumentCount e f => s!"Expected {e} arguments, got {f}"
  | expectedState => "Expected a state declaration 's <name>'"
  | expectedTransition => "Expected a transition 't <from> <to> <symbol>'"
  | duplicateState s => s!"State {s} is declared twice"
  | undefinedState s => s!"State {s} is not defined"
  | invalidLabel t => s!"Symbol has to be a single character or \"\", got {t}"
  | foreignLetter c => s!"Symbol {c} is not in the alphabet"
  | epsilonNotAllowed => "Only automata of type enfa can contain epsilon transitions"
  | duplicateTransition s c => s!"State {s} already has a transition on {c}"
  | missingStates d f => s!"Expected {d} state declarations, found {f}"
  | missingTransitions d f => s!"Expected {d} transitions, found {f}"
  | trailingContent => "Unexpected content after the last declared transition"
  | notSaturated gaps =>
    "Not all states are saturated!\n" ++ "\n".intercalate (gaps.map Gap.text)

end Cause

/-- What is wrong with a description, and where. -/
structure Error where
  /-- What is wrong. -/
  cause : Cause
  /-- The place that shows it, if there is one. -/
  position : Option Position
  deriving DecidableEq

namespace Error

/-- An error at a position. -/
def located (p : Position) (c : Cause) : Error := ⟨c, some p⟩

end Error

end Description

end Acceptor
