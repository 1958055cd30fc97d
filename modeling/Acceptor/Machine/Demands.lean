import Acceptor.Kind
import Acceptor.Machine

/-!
# The demands of the kinds

What each kind of automaton demands of its machine, said of the machine itself and not through a
check. Wildcard coverage is a demand on languages and is not among them.
-/

namespace Acceptor

namespace Machine

/-- A machine meets the demands of kind `k`, wildcard coverage apart. -/
structure Meets (k : Kind) (m : Machine) : Prop where
  /-- There is an initial state. -/
  initial_ne_nil : m.initial ≠ []
  /-- A deterministic automaton has one initial state. -/
  initial_single : k = .dfa → m.initial.length = 1
  /-- Initial ids are states. -/
  initial_lt : ∀ q ∈ m.initial, q < m.size
  /-- Final ids are states. -/
  final_lt : ∀ q ∈ m.finals, q < m.size
  /-- Edges lead to states. -/
  target_lt : ∀ p l, ∀ q ∈ m.graph.targets p l, q < m.size
  /-- Letters on edges are in the alphabet. -/
  letter_mem : ∀ p c, m.graph.targets p (.letter c) ≠ [] → c ∈ m.alphabet
  /-- Only one kind has empty moves. -/
  no_epsilon : k ≠ .enfa → ∀ p, m.graph.targets p .epsilon = []
  /-- A state of a deterministic automaton has one edge on each letter of the alphabet. -/
  letter_single : k = .dfa → ∀ p < m.size, ∀ c ∈ m.alphabet,
    ∃ q, m.graph.targets p (.letter c) = [q]
  /-- A state of a deterministic automaton has at most one wildcard edge. -/
  any_single : k = .dfa → ∀ p, (m.graph.targets p .any).length ≤ 1

end Machine

end Acceptor
