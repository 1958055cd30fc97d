import Acceptor.IdSet

/-!
# Families of sets

A family lists sets by number. Its union over a set of numbers holds the members of the sets that
have these numbers, so a map from ids to sets, tabulated once, can be applied to whole sets.

## Main results

* `IdSet.mem_unionOver`, `IdSet.mem_unionOver_range`: the members of a union over a set.
-/

namespace Acceptor

namespace IdSet

variable {sets : Array IdSet} {s : IdSet} {i n : Nat}

/-- The union of the sets of a family that are numbered by the members of `s`. A number past the
end stands for the empty set. -/
def unionOver (sets : Array IdSet) (s : IdSet) : IdSet :=
  s.toList.foldl (fun t q => t ∪ (sets[q]?).getD ∅) ∅

theorem mem_foldl_union {t : IdSet} {qs : List Nat} :
    i ∈ qs.foldl (fun t q => t ∪ (sets[q]?).getD ∅) t ↔
      i ∈ t ∨ ∃ q ∈ qs, i ∈ (sets[q]?).getD ∅ := by
  induction qs generalizing t with
  | nil => simp
  | cons q qs ih => simp [ih, or_assoc]

theorem mem_unionOver : i ∈ unionOver sets s ↔ ∃ q ∈ s, i ∈ (sets[q]?).getD ∅ := by
  simp [unionOver, mem_foldl_union]

/-- A tabulated map takes a set to the union of the values at its members. -/
theorem mem_unionOver_range {f : Nat → IdSet} (hs : ∀ q, n ≤ q → f q = ∅) :
    i ∈ unionOver ((Array.range n).map f) s ↔ ∃ q ∈ s, i ∈ f q := by
  rw [mem_unionOver]
  refine exists_congr fun q => and_congr_right fun _ => ?_
  by_cases h : q < n
  · simp [h]
  · simp [h, hs q (Nat.not_lt.mp h)]

end IdSet

end Acceptor
