import Acceptor.Machine

/-!
# New names for states

The names of states serve listings and drawings, and nothing that is done with a machine depends on
them.
-/

namespace Acceptor

namespace Machine

/-- The machine with its states named anew, by their ids. All else stays the same. -/
def renamed (m : Machine) (name : Nat → String) : Machine :=
  { m with graph := ⟨m.graph.states.mapIdx fun q s => { s with name := name q }⟩ }

end Machine

end Acceptor
