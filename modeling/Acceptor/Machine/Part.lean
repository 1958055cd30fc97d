import Acceptor.Machine
import Mathlib.Data.List.Forall2

/-!
# Parts of a machine

What it means that a machine is another one with some of its states left out. The states that are
kept are listed in increasing order and numbered by their places in the list. They keep their names
and all of their edges, the order of labels and of targets included. Every initial id has to be
kept, while of the final ids the others are dropped.

## Implementation notes

This is a relation between two machines and a list, said without a look at how a part is taken.
-/

namespace Acceptor

/-- The ids `new` are the places in `kept` of the ids `old`, one by one. -/
def Numbered (kept old new : List Nat) : Prop := List.Forall₂ (fun q i => kept[i]? = some q) old new

/-- The state `t` is the state `s` with the targets of its edges numbered by their places. -/
structure State.NumberedAs (s : State) (kept : List Nat) (t : State) : Prop where
  /-- The name is the same. -/
  name : t.name = s.name
  /-- So are the labels in order, and the targets under each. -/
  groups : List.Forall₂ (fun g h => h.1 = g.1 ∧ Numbered kept g.2 h.2) s.edges.groups t.edges.groups

namespace Machine

/-- The machine `n` is the machine `m` on the states of `kept`. -/
structure PartOn (m : Machine) (kept : List Nat) (n : Machine) : Prop where
  /-- The states that are kept are listed in increasing order. -/
  sorted : kept.Pairwise (· < ·)
  /-- There is one state for each. -/
  size : n.size = kept.length
  /-- It has the name and the edges of the old one. -/
  state : ∀ i q : Nat, kept[i]? = some q → ∃ s t : State, m.graph.states[q]? = some s ∧
    n.graph.states[i]? = some t ∧ s.NumberedAs kept t
  /-- The initial ids are the same. -/
  initial : Numbered kept m.initial n.initial
  /-- The final ids are those that are kept. -/
  finals : Numbered kept (m.finals.filter (· ∈ kept)) n.finals
  /-- The alphabet is the same. -/
  alphabet : n.alphabet = m.alphabet

end Machine

end Acceptor
