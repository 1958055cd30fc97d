import Acceptor.Proofs.Reading

/-!
# The laws of closure under empty moves

A closure is found exactly if no path of empty moves leaves the states, and then it holds what these
paths reach and nothing else. So its laws are laws of paths: the path without a move makes closures
extensive, paths put together make them idempotent, and since a path starts at one member of a set,
they are monotone and go through unions.

The laws are stated of the search and not of the sets, so that they say when it succeeds. A subset
of a set with a closure has one as well, and a union has one exactly if both of its parts do.

## Main results

* `Graph.closure?_eq_some_iff`: when there is a closure, and which.
* `Graph.closure?_union`: the closure of a union, failures included.
* `Graph.closure?_reachability`: reachability, failure and the laws together.
-/

namespace Acceptor

namespace Graph

variable {g : Graph} {s t c d : IdSet}

/-- No path of empty moves from a member of `s` leaves the states. -/
def Encloses (g : Graph) (s : IdSet) : Prop := ∀ p ∈ s, ∀ q, g.EpsilonPath p q → q < g.size

theorem Encloses.mono (h : g.Encloses t) (hst : ∀ p ∈ s, p ∈ t) : g.Encloses s := by
  intro p hp
  exact h p (hst p hp)

theorem encloses_union : g.Encloses (s ∪ t) ↔ g.Encloses s ∧ g.Encloses t := by
  constructor
  · intro h
    exact ⟨h.mono fun p hp => IdSet.mem_union.mpr (.inl hp),
      h.mono fun p hp => IdSet.mem_union.mpr (.inr hp)⟩
  · rintro ⟨hs, ht⟩ p hp
    rcases IdSet.mem_union.mp hp with hp | hp
    · exact hs p hp
    · exact ht p hp

/-! ### When there is a closure -/

theorem closure?_eq_none_iff : g.closure? s = none ↔ ¬g.Encloses s := by
  rw [closure?_eq_none]
  simp [Encloses]

theorem exists_closure? (h : g.Encloses s) :
    ∃ c, g.closure? s = some c ∧ ∀ q, q ∈ c ↔ ∃ p ∈ s, g.EpsilonPath p q := by
  obtain ⟨c, hc⟩ := Option.isSome_iff_exists.mp (closure?_isSome h)
  exact ⟨c, hc, fun q => mem_closure? hc⟩

theorem closure?_eq_some_iff : g.closure? s = some c ↔
    g.Encloses s ∧ ∀ q, q ∈ c ↔ ∃ p ∈ s, g.EpsilonPath p q := by
  constructor
  · intro hc
    refine ⟨Classical.byContradiction fun h => ?_, fun q => mem_closure? hc⟩
    rw [closure?_eq_none_iff.mpr h] at hc
    cases hc
  · rintro ⟨h, hmem⟩
    obtain ⟨d, hd, hmem'⟩ := exists_closure? h
    have hdc : d = c := IdSet.ext_mem fun q => by rw [hmem, hmem']
    rw [hd, hdc]

/-! ### The laws -/

theorem subset_of_closure? (h : g.closure? s = some c) : s.isSubset c := by
  refine IdSet.isSubset_iff.mpr fun q hq => ?_
  exact (mem_closure? h).mpr ⟨q, hq, .refl q⟩

/-- A closure is closed. -/
theorem closure?_of_closure? (h : g.closure? s = some c) : g.closure? c = some c := by
  obtain ⟨hs, hmem⟩ := closure?_eq_some_iff.mp h
  refine closure?_eq_some_iff.mpr ⟨fun q hq r hr => ?_, fun r => ⟨fun hr => ⟨r, hr, .refl r⟩, ?_⟩⟩
  · obtain ⟨p, hp, hpq⟩ := (hmem q).mp hq
    exact hs p hp r (hpq.trans hr)
  · rintro ⟨q, hq, hqr⟩
    obtain ⟨p, hp, hpq⟩ := (hmem q).mp hq
    exact (hmem r).mpr ⟨p, hp, hpq.trans hqr⟩

theorem closure?_mono (hst : s.isSubset t) (hd : g.closure? t = some d) :
    ∃ c, g.closure? s = some c ∧ c.isSubset d := by
  have hst := IdSet.isSubset_iff.mp hst
  obtain ⟨ht, hmem⟩ := closure?_eq_some_iff.mp hd
  obtain ⟨c, hc, hmem'⟩ := exists_closure? (ht.mono hst)
  refine ⟨c, hc, IdSet.isSubset_iff.mpr fun q hq => ?_⟩
  obtain ⟨p, hp, hpq⟩ := (hmem' q).mp hq
  exact (hmem q).mpr ⟨p, hst p hp, hpq⟩

theorem closure?_union :
    g.closure? (s ∪ t) = do return (← g.closure? s) ∪ (← g.closure? t) := by
  by_cases hs : g.Encloses s
  · by_cases ht : g.Encloses t
    · obtain ⟨c, hc, hmem⟩ := exists_closure? hs
      obtain ⟨d, hd, hmem'⟩ := exists_closure? ht
      have hunion : g.closure? (s ∪ t) = some (c ∪ d) := by
        refine closure?_eq_some_iff.mpr ⟨encloses_union.mpr ⟨hs, ht⟩, fun q => ?_⟩
        simp only [IdSet.mem_union, hmem, hmem', or_and_right, exists_or]
      simp [hunion, hc, hd]
    · have hunion : g.closure? (s ∪ t) = none :=
        closure?_eq_none_iff.mpr fun h => ht (encloses_union.mp h).2
      obtain ⟨c, hc, -⟩ := exists_closure? hs
      simp [hunion, hc, closure?_eq_none_iff.mpr ht]
  · have hunion : g.closure? (s ∪ t) = none :=
      closure?_eq_none_iff.mpr fun h => hs (encloses_union.mp h).1
    simp [hunion, closure?_eq_none_iff.mpr hs]

/-- **Closure under empty moves is reachability.** If every path of empty moves from a set stays
among the states, the closure of the set is found and holds exactly the ends of these paths. If one
of them leaves the states, possibly at its start, there is no closure. What is found contains the set
and is its own closure; a subset has a smaller closure; and the closure of a union is the union of
the closures, which exists exactly if they do. -/
theorem closure?_reachability (g : Graph) (s t : IdSet) :
    ((∀ p ∈ s, ∀ q, g.EpsilonPath p q → q < g.size) →
      ∃ c, g.closure? s = some c ∧ ∀ q, q ∈ c ↔ ∃ p ∈ s, g.EpsilonPath p q) ∧
    ((∃ p ∈ s, ∃ q, g.EpsilonPath p q ∧ g.size ≤ q) → g.closure? s = none) ∧
    (∀ c, g.closure? s = some c → s.isSubset c ∧ g.closure? c = some c) ∧
    (s.isSubset t → ∀ d, g.closure? t = some d → ∃ c, g.closure? s = some c ∧ c.isSubset d) ∧
    g.closure? (s ∪ t) = do return (← g.closure? s) ∪ (← g.closure? t) :=
  ⟨exists_closure?, closure?_eq_none.mpr,
    fun _ hc => ⟨subset_of_closure? hc, closure?_of_closure? hc⟩,
    fun hst _ hd => closure?_mono hst hd, closure?_union⟩

/-- The first two states have empty moves to each other, the first one also to itself. The third has
one to the second and one that leaves the states. -/
def looping : Graph :=
  ⟨#[⟨"p", .ofList [(.epsilon, 0), (.epsilon, 1)]⟩, ⟨"q", .ofList [(.epsilon, 0), (.letter 'a', 2)]⟩,
    ⟨"r", .ofList [(.epsilon, 1), (.epsilon, 7)]⟩]⟩

theorem closure?_reachability_looping :
    ((∀ p ∈ IdSet.ofList [1], ∀ q, looping.EpsilonPath p q → q < looping.size) ∧
      ∃ c, looping.closure? (.ofList [1]) = some c ∧
        ∀ q, q ∈ c ↔ ∃ p ∈ IdSet.ofList [1], looping.EpsilonPath p q) ∧
    ((∃ p ∈ IdSet.ofList [2], ∃ q, looping.EpsilonPath p q ∧ looping.size ≤ q) ∧
      looping.closure? (.ofList [2]) = none) ∧
    (looping.closure? (.ofList [1]) = some (.ofList [0, 1]) ∧
      (IdSet.ofList [1]).isSubset (.ofList [0, 1]) ∧
      looping.closure? (.ofList [0, 1]) = some (.ofList [0, 1])) ∧
    ∃ c, looping.closure? (.ofList [1]) = some c ∧ c.isSubset (.ofList [0, 1]) := by
  have hone : looping.closure? (.ofList [1]) = some (.ofList [0, 1]) := by decide +kernel
  have hinside : ∀ p ∈ IdSet.ofList [1], ∀ q, looping.EpsilonPath p q → q < looping.size :=
    (closure?_eq_some_iff.mp hone).1
  have hleaves : ∃ p ∈ IdSet.ofList [2], ∃ q, looping.EpsilonPath p q ∧ looping.size ≤ q :=
    ⟨2, by decide, 7, .tail (.refl 2) (by decide), by decide⟩
  have hlaws := closure?_reachability looping (.ofList [1]) (.ofList [0, 1])
  have hclosed := hlaws.2.2.1 _ hone
  exact ⟨⟨hinside, hlaws.1 hinside⟩,
    ⟨hleaves, (closure?_reachability looping (.ofList [2]) ∅).2.1 hleaves⟩,
    ⟨hone, hclosed⟩, hlaws.2.2.2.1 hclosed.1 _ hclosed.2⟩

end Graph

end Acceptor
