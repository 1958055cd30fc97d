import Acceptor.Machine.Defect

/-!
# What defects say

A defect is a complaint about a machine. What it complains about is said here of the machine itself,
of its lists of ids and the targets of its states, and not through the check that reports it.
-/

namespace Acceptor

/-- The state with the id `q` has that name. -/
def Graph.IsNamed (g : Graph) (q : Nat) (name : String) : Prop :=
  g.states[q]?.map State.name = some name

/-- What a defect says is true of a machine that is to be an automaton of kind `k`. Wildcard coverage
is no part of validation, so nothing is said by the complaint about it. -/
def Defect.TrueOf (k : Kind) (m : Machine) : Defect → Prop
  | .noInitial => m.initial = []
  | .severalInitial n => k = .dfa ∧ m.initial.length = n ∧ 1 < n
  | .outOfRange q n => n = m.size ∧ n ≤ q ∧
    (q ∈ m.initial ∨ q ∈ m.finals ∨ ∃ p l, q ∈ m.graph.targets p l)
  | .epsilonEdge name => k ≠ .enfa ∧ ∃ p, m.graph.IsNamed p name ∧ m.graph.targets p .epsilon ≠ []
  | .foreignLetter name c => c ∉ m.alphabet ∧
    ∃ p, m.graph.IsNamed p name ∧ m.graph.targets p (.letter c) ≠ []
  | .missingLetters name cs => k = .dfa ∧ cs ≠ [] ∧ cs.Pairwise (· < ·) ∧
    ∃ p, m.graph.IsNamed p name ∧
      ∀ c, c ∈ cs ↔ c ∈ m.alphabet ∧ m.graph.targets p (.letter c) = []
  | .ambiguous name l => k = .dfa ∧
    ∃ p, m.graph.IsNamed p name ∧ 1 < (m.graph.targets p l).length
  | .uncovered _ _ => False

end Acceptor
