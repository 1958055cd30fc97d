import Acceptor.Machine

/-!
# Machines that differ in order and names only

What it means that two machines are the same as relations: they have the same ids, the same edges
between them, the same initial and final ids and the same alphabet. The names of their states may
differ, and so may the order in which ids, labels and targets are listed and how often ids are.
-/

namespace Acceptor

namespace Machine

/-- The machine `n` has the edges, the initial and the final ids and the alphabet of `m`. -/
structure SameEdges (m n : Machine) : Prop where
  /-- There are as many states. -/
  size : n.size = m.size
  /-- The same ids are initial. -/
  initial : ∀ q, q ∈ n.initial ↔ q ∈ m.initial
  /-- The same ids are final. -/
  finals : ∀ q, q ∈ n.finals ↔ q ∈ m.finals
  /-- Every label leads from every state to the same targets. -/
  targets : ∀ p l q, q ∈ n.graph.targets p l ↔ q ∈ m.graph.targets p l
  /-- The alphabets are the same. -/
  alphabet : n.alphabet = m.alphabet

end Machine

end Acceptor
