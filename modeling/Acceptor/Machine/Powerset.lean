import Acceptor.Machine

/-!
# Machines of sets of states

What it means that the states of a machine stand for sets of states of another one. The sets are
those that images lead to from the initial set, on each character of the alphabet and, if some edge
is a wildcard, under the wildcard. Every image is one edge, and there are no other edges.

## Implementation notes

This is a relation between two machines and a list of sets, said without a look at how the sets are
found.
-/

namespace Acceptor

namespace Machine

/-- The sets that images lead to from the initial set, any number of them. -/
inductive SetReached (m : Machine) : IdSet → Prop where
  /-- The initial set. -/
  | initial : SetReached m m.initialSet
  /-- The image on a character of the alphabet, which takes the wildcard edges along. -/
  | letter {s : IdSet} {c : Char} : SetReached m s → c ∈ m.alphabet →
    SetReached m (m.graph.reading s c)
  /-- The image under the wildcard, if there is one. -/
  | any {s : IdSet} : SetReached m s → m.hasWildcard → SetReached m (m.graph.image s .any)

/-- The states of `d` stand for the sets of states of `m` that are listed in `sets`. -/
structure Powerset (m : Machine) (sets : List IdSet) (d : Machine) : Prop where
  /-- No set is listed twice. -/
  nodup : sets.Nodup
  /-- The sets are those that images lead to. -/
  mem_iff : ∀ s, s ∈ sets ↔ m.SetReached s
  /-- They are sets of states. -/
  lt : ∀ s ∈ sets, ∀ q ∈ s, q < m.size
  /-- There is one state for each. -/
  size : d.size = sets.length
  /-- The first stands for the initial set. -/
  first : sets[0]? = some m.initialSet
  /-- It is the initial state. -/
  initial : d.initial = [0]
  /-- On a character of the alphabet a set has an image, and its state leads there. -/
  letter : ∀ (i : Nat) s c, sets[i]? = some s → c ∈ m.alphabet →
    m.graph.reading? s c = some (m.graph.reading s c) ∧
      ∃ j, d.graph.targets i (.letter c) = [j] ∧ sets[j]? = some (m.graph.reading s c)
  /-- So it is under the wildcard, if there is one. -/
  any : ∀ (i : Nat) s, sets[i]? = some s → m.hasWildcard →
    m.graph.image? s .any = some (m.graph.image s .any) ∧
      ∃ j, d.graph.targets i .any = [j] ∧ sets[j]? = some (m.graph.image s .any)
  /-- There are no other edges. -/
  label : ∀ i l, d.graph.targets i l ≠ [] →
    (∃ c ∈ m.alphabet, l = .letter c) ∨ l = .any ∧ m.hasWildcard
  /-- A state is final if its set has a final member. -/
  finals : ∀ i, i ∈ d.finals ↔ ∃ s, sets[i]? = some s ∧ ∃ q ∈ s, q ∈ m.finals
  /-- The alphabet is the same. -/
  alphabet : d.alphabet = m.alphabet

end Machine

end Acceptor
