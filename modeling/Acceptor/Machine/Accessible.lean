import Acceptor.Machine
import Acceptor.Search

/-!
# The accessible part

The accessible part of a machine keeps the states that some path reaches from an initial one. They
are renumbered without gaps in their old order.
-/

namespace Acceptor

namespace Machine

/-- The ids that paths reach from the initial ones, in the order of discovery. -/
def reached? (m : Machine) : Option (List Nat) :=
  Search.explore? id m.graph.successors? m.size m.initial

/-- The states of `kept` by themselves, numbered by their place in it. Edges to states that are not
kept are dropped. -/
def restrict (m : Machine) (kept : List Nat) : Machine where
  graph := ⟨(kept.filterMap fun q => (m.graph.states[q]?).map fun s =>
    { s with edges := s.edges.renumber kept }).toArray⟩
  initial := Edges.renumbered kept m.initial
  finals := Edges.renumbered kept m.finals
  alphabet := m.alphabet

/-- The machine restricted to the states reached from its initial ones. It fails if an initial, a
final or a reached id is no state. -/
def accessible? (m : Machine) : Option Machine :=
  if m.finals.all (· < m.size) then
    m.reached?.map fun reached => m.restrict (IdSet.ofList reached).toList
  else none

end Machine

end Acceptor
