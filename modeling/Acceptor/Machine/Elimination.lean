import Acceptor.Edges.Sets
import Acceptor.Machine.Acceptance

/-!
# Eliminating empty moves

The machine without empty moves has the same states. From a state it reads a character the way the
machine does that first makes any number of empty moves, then reads, then makes empty moves again;
and it starts from the closure of the initial states.

## Implementation notes

The closures of the single states are tabulated, since every closure that is needed is a union of
them.
-/

namespace Acceptor

namespace Machine

/-- The edges of state `q` without empty moves, given the closures of the single states: for each
label, the closure of the image of the closure of `q`. -/
def closedEdges (m : Machine) (closures : Array IdSet) (q : Nat) : Edges :=
  let reach := (closures[q]?).getD ∅
  .ofSets (m.readLabels.map fun l => (l, .unionOver closures (m.graph.image reach l)))
    (by simpa [Function.comp_def] using m.readLabels_nodup)

/-- The machine without empty moves. It fails if an edge leads to no state or an initial id is no
state. -/
def eliminate? (m : Machine) : Option Machine :=
  if m.graph.confined && m.graph.covers m.initialSet then
    let closures := m.graph.closures
    some { m with
      graph := ⟨m.graph.states.mapIdx fun q s => ⟨s.name, m.closedEdges closures q⟩⟩
      initial := (m.graph.closure m.initialSet).toList }
  else none

end Machine

end Acceptor
