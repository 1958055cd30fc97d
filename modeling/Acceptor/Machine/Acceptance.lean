import Acceptor.Graph.Closure
import Acceptor.Machine

/-!
# Reading words

There are three ways to read a word with a machine. Tracking follows the set of all states that the
letters and wildcards read so far may lead to; tracking with empty moves closes that set after every
character; walking follows one state, along the letter if it has an edge and else along the
wildcard.

## Implementation notes

Tracking fails when it comes to an id that is no state, or to a set that cannot be held. Walking does
not: an id that is no state has no edges, and a walk that finds no edge rejects.
-/

namespace Acceptor

namespace Machine

/-! ### Tracking -/

/-- The states after reading a word from the members of `s`. -/
def track? (m : Machine) (s : IdSet) (w : List Char) : Option IdSet :=
  w.foldlM m.graph.reading? s

/-- Whether tracking from the initial states ends in a set with a final one. -/
def tracks? (m : Machine) (w : List Char) : Option Bool := do
  let start ← m.initialSet?
  let reached ← m.track? start w
  let finals ← m.finalSet?
  return reached.meets finals

/-- The states after reading one character and any number of empty moves. -/
def closedReading? (m : Machine) (s : IdSet) (c : Char) : Option IdSet :=
  (m.graph.reading? s c).bind m.graph.closure?

/-- Whether tracking with empty moves from the initial states ends in a set that shares a state
with the closure of the final ones. -/
def closedTracks? (m : Machine) (w : List Char) : Option Bool := do
  let start ← m.initialSet? >>= m.graph.closure?
  let reached ← w.foldlM m.closedReading? start
  let finals ← m.finalSet? >>= m.graph.closure?
  return reached.meets finals

/-! ### Walking -/

/-- The target of the first edge under `l`, or of the first wildcard edge if there is none. -/
def follow? (m : Machine) (q : Nat) (l : Label) : Option Nat :=
  (m.graph.targets q l ++ m.graph.targets q .any).head?

/-- The state after reading a word from `q`, unless an edge is missing. -/
def walk? (m : Machine) (q : Nat) (w : List Char) : Option Nat :=
  w.foldlM (fun q c => m.follow? q (.letter c)) q

/-- Whether a state is final. -/
def isFinal (m : Machine) (q : Nat) : Bool := q ∈ m.finals

/-- Whether the walk from `q` ends in a final state. -/
def walksFrom (m : Machine) (q : Nat) (w : List Char) : Bool := (m.walk? q w).any m.isFinal

/-- Whether the walk from the first initial state ends in a final state. There has to be an initial
state. -/
def walks? (m : Machine) (w : List Char) : Option Bool := m.initial.head?.map (m.walksFrom · w)

end Machine

end Acceptor
