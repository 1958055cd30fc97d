import Acceptor.Machine.Accessible
import Acceptor.Machine.Coverage
import Acceptor.Machine.Determinization
import Acceptor.Machine.Elimination
import Acceptor.Pattern.Machine

/-!
# Automata

An automaton is a machine of a kind. It is made from a machine that meets the demands of the kind,
or compiled from a pattern, and can be converted to another kind.

## Implementation notes

Conversions go down one kind at a time: empty moves are eliminated, then the machine is
determinized and its accessible part taken. Going up keeps the machine as it is. A conversion fails
if a machine runs into an id that is no state, or too large for a set, or if its result has a defect.
-/

namespace Acceptor

/-- A machine of a kind. -/
structure Automaton where
  /-- The kind. -/
  kind : Kind
  /-- The machine. -/
  machine : Machine
  deriving DecidableEq

/-- Why a step from one machine to another fails. -/
inductive Fault where
  /-- An id was looked up that is no state, or one that no set can hold. -/
  | noState
  /-- The result does not meet the demands of its kind. -/
  | defect (d : Defect)
  deriving DecidableEq

namespace Machine

/-- Whether a machine meets all demands of a kind. -/
def check (k : Kind) (m : Machine) : Except Defect Unit := do
  m.validate k
  if k = .dfa then m.coverage else .ok ()

end Machine

namespace Automaton

/-- The automaton of a machine that meets the demands of a kind. -/
def ofMachine (k : Kind) (m : Machine) : Except Defect Automaton := do
  m.check k
  return ⟨k, m⟩

/-- A result that may have looked up an id that is no state. -/
def found {α : Type} : Option α → Except Fault α
  | some a => .ok a
  | none => .error .noState

/-- The machine that `k` demands, with its defect as a fault. -/
def checked (k : Kind) (m : Machine) : Except Fault Machine :=
  match m.check k with
  | .ok () => .ok m
  | .error d => .error (.defect d)

/-! ### Conversions -/

/-- The machine without empty moves. -/
def eliminated (m : Machine) : Except Fault Machine := found m.eliminate? >>= checked .nfa

/-- The accessible part of the deterministic machine. -/
def determinized (m : Machine) : Except Fault Machine := do
  let subsets ← found m.determinize? >>= checked .dfa
  found subsets.accessible?

/-- The automaton of kind `k` for the language of `a`. -/
def convert (a : Automaton) (k : Kind) : Except Fault Automaton :=
  match a.kind, k with
  | .enfa, .nfa => (eliminated a.machine).map (⟨k, ·⟩)
  | .enfa, .dfa => (eliminated a.machine >>= determinized).map (⟨k, ·⟩)
  | .nfa, .dfa => (determinized a.machine).map (⟨k, ·⟩)
  | _, _ => .ok ⟨k, a.machine⟩

/-- The automaton on the accessible part of the machine. -/
def accessible (a : Automaton) : Except Fault Automaton :=
  (found a.machine.accessible?).map (⟨a.kind, ·⟩)

/-- The automaton of kind `k` for a pattern. -/
def ofPattern (k : Kind) (p : Pattern) : Except Fault Automaton := do
  let m ← checked .enfa p.machine
  convert ⟨.enfa, m⟩ k

/-! ### Reading words -/

/-- Whether the automaton accepts a word, unless reading comes to an id that is no state. -/
def accepts? (a : Automaton) (w : String) : Option Bool :=
  match a.kind with
  | .dfa => a.machine.walks? w.toList
  | .nfa => a.machine.tracks? w.toList
  | .enfa => a.machine.closedTracks? w.toList

/-- Whether the automaton accepts a word. -/
def accepts (a : Automaton) (w : String) : Bool := a.accepts? w == some true

end Automaton

end Acceptor
