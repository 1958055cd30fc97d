import Acceptor.IdSet

/-!
# Sets in memory

The length of a set in memory is one more than its largest member, and lengths are numbers of 64
bits. So every set of smaller ids can be held, while one with the last 64-bit number for a member
cannot.

## Main results

* `IdSet.held?_eq`: a set can be held if its members are states or in bounds.
* `IdSet.held?_eq_none`: a set cannot be held exactly if a member is no state and out of bounds.

## Implementation notes

There are fewer states in memory than there are ids below the bound. Graphs are not bounded here, so
the ids of their states count as held whatever the number of states.
-/

namespace Acceptor

namespace IdSet

variable {s : IdSet} {n : Nat}

/-- The bound below which ids can be held. -/
def idBound : Nat := UInt64.size - 1

/-- The set, if it can be held beside `n` states. -/
def held? (n : Nat) (s : IdSet) : Option IdSet :=
  if s.toList.all fun i => i < n ∨ i < idBound then some s else none

theorem held?_eq (h : ∀ i ∈ s, i < n ∨ i < idBound) : s.held? n = some s :=
  if_pos (List.all_eq_true.mpr fun i hi => decide_eq_true (h i (mem_toList.mp hi)))

theorem held?_eq_none : s.held? n = none ↔ ∃ i ∈ s, n ≤ i ∧ idBound ≤ i := by
  simp [held?]

end IdSet

end Acceptor
