import Acceptor.Machine

/-!
# Machines in normal form

What the edges of a machine leave open is how they are listed. In normal form ids are listed in
increasing order, and the labels of a state in the one order in which labels are read. So no label
is an empty move.

The final ids stay as they are. Neither the order of the final ids nor their repetitions are part of
the form.
-/

namespace Acceptor

namespace Machine

/-- The machine lists its initial ids, the labels of its states and their targets in order. -/
structure Normal (m : Machine) : Prop where
  /-- The initial ids are increasing. -/
  initial_sorted : m.initial.Pairwise (· < ·)
  /-- The targets of a label are increasing. -/
  targets_sorted : ∀ q l, (m.graph.targets q l).Pairwise (· < ·)
  /-- The labels of a state are among those that are read, in the same order. -/
  labels_sublist : ∀ s ∈ m.graph.states, s.edges.labels.Sublist m.readLabels

end Machine

end Acceptor
