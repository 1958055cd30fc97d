import Acceptor.Graph.Names
import Acceptor.Machine

/-!
# Machines in a row

In a row of states each edge leads from a state to the next one or back to the state itself. A row
starts at its only initial state and ends at its only final one. Loops read characters, all loops of
a state the same ones.
-/

namespace Acceptor

namespace Machine

/-- The states of a machine stand in a row. -/
structure InRow (m : Machine) : Prop where
  /-- The states are named by their ids. -/
  names : m.graph.names = (List.range m.size).map toString
  /-- There is a state. -/
  size_pos : 0 < m.size
  /-- The first state is the initial one. -/
  initial : m.initial = [0]
  /-- The last state is the final one. -/
  finals : m.finals = [m.size - 1]
  /-- An edge leads to the next state or is a loop. -/
  target : ∀ p l, ∀ q ∈ m.graph.targets p l, q = p ∨ q = p + 1
  /-- A state has loops with one label at most. -/
  loop_unique : ∀ p l k, p ∈ m.graph.targets p l → p ∈ m.graph.targets p k → l = k
  /-- No loop is an empty move. -/
  loop_ne_epsilon : ∀ p, p ∉ m.graph.targets p .epsilon
  /-- What leaves the final state is a loop. -/
  final_target : ∀ l, ∀ q ∈ m.graph.targets (m.size - 1) l, q = m.size - 1

end Machine

end Acceptor
