import Acceptor.Graph.Image
import Acceptor.IdSet.Family
import Acceptor.Search

/-!
# Closure under empty moves

The closure of a set of states adds what empty moves reach, any number of them. It fails when it
comes to an id that is no state.

## Main results

* `Graph.mem_closure?`: the closure holds exactly what paths of empty moves reach.
* `Graph.closure?_eq_none`: the closure fails exactly if such a path leaves the states.
* `Graph.mem_unionOver_closures`: the closures of the single states give the closure of any set.
-/

namespace Acceptor

namespace Graph

variable {g : Graph} {s t : IdSet} {p q r : Nat}

/-- A path of empty moves from one id to another, of any length. -/
inductive EpsilonPath (g : Graph) : Nat → Nat → Prop where
  /-- The path without a move. -/
  | refl (q : Nat) : EpsilonPath g q q
  /-- A path with one more move. -/
  | tail {p q r : Nat} : EpsilonPath g p q → r ∈ g.targets q .epsilon → EpsilonPath g p r

/-- Everything that empty moves reach from the members of `s`, unless they reach an id that is no
state. -/
def closure? (g : Graph) (s : IdSet) : Option IdSet :=
  (Search.explore? id (g.targets? · .epsilon) g.size s.toList).map .ofList

theorem reach_iff : Search.Reach (g.targets? · .epsilon) s.toList q ↔
    ∃ p ∈ s, g.EpsilonPath p q := by
  constructor
  · intro h
    induction h with
    | root hr => exact ⟨_, IdSet.mem_toList.mp hr, .refl _⟩
    | step _ hys hy ih =>
      obtain ⟨p, hp, hpath⟩ := ih
      exact ⟨p, hp, hpath.tail (by simpa [targets, hys] using hy)⟩
  · rintro ⟨p, hp, hpath⟩
    induction hpath with
    | refl => exact .root (IdSet.mem_toList.mpr hp)
    | tail _ hr ih => exact .step ih (targets?_eq_some (lt_size_of_mem_targets hr)) hr

theorem mem_closure? (h : g.closure? s = some t) : q ∈ t ↔ ∃ p ∈ s, g.EpsilonPath p q := by
  obtain ⟨out, hout, rfl⟩ := Option.map_eq_some_iff.mp h
  rw [IdSet.mem_ofList, Search.explore?_mem hout (fun _ _ _ _ hk => hk), reach_iff]

theorem closure?_isSome (h : ∀ p ∈ s, ∀ q, g.EpsilonPath p q → q < g.size) :
    (g.closure? s).isSome := by
  have hlt : ∀ q, Search.Reach (g.targets? · .epsilon) s.toList q → q < g.size := fun q hq => by
    obtain ⟨p, hp, hpath⟩ := reach_iff.mp hq
    exact h p hp q hpath
  rw [closure?, Option.isSome_map]
  refine Search.explore?_isSome (fun q hq => ?_) fun xs hr hn => ?_
  · simp [targets?_eq_some (hlt q hq)]
  · exact Search.length_le_of_lt (by simpa using hn) fun x hx => hlt x (hr x hx)

theorem closure?_eq_none : g.closure? s = none ↔ ∃ p ∈ s, ∃ q, g.EpsilonPath p q ∧ g.size ≤ q := by
  constructor
  · intro h
    refine Classical.byContradiction fun hno => ?_
    have : (g.closure? s).isSome := closure?_isSome fun p hp q hpath =>
      Nat.not_le.mp fun hle => hno ⟨p, hp, q, hpath, hle⟩
    rw [h] at this
    exact absurd this (by simp)
  · rintro ⟨p, hp, q, hpath, hle⟩
    refine Option.map_eq_none_iff.mpr (Option.eq_none_iff_forall_ne_some.mpr fun out hout => ?_)
    have hq := (Search.explore?_mem hout (fun _ _ _ _ hk => hk)).mpr (reach_iff.mpr ⟨p, hp, hpath⟩)
    have hsome := Search.explore?_next hout hq
    simp [targets?_eq_none.mpr hle] at hsome

/-! ### Closures in graphs whose edges lead to states -/

/-- Everything that empty moves reach from the members of `s`, nothing if they reach an id that is
no state. -/
def closure (g : Graph) (s : IdSet) : IdSet := (g.closure? s).getD ∅

/-- The closures of the single states. -/
def closures (g : Graph) : Array IdSet := (Array.range g.size).map fun q => g.closure (.ofList [q])

theorem EpsilonPath.lt_size (hg : g.confined) (h : g.EpsilonPath p q) (hp : p < g.size) :
    q < g.size := by
  cases h with
  | refl => exact hp
  | tail _ hr => exact confined_iff.mp hg _ _ _ hr

theorem closure?_eq (hg : g.confined) (hs : ∀ p ∈ s, p < g.size) :
    g.closure? s = some (g.closure s) := by
  obtain ⟨t, ht⟩ := Option.isSome_iff_exists.mp
    (closure?_isSome fun p hp _ hpath => hpath.lt_size hg (hs p hp))
  simp [closure, ht]

theorem mem_closure (hg : g.confined) (hs : ∀ p ∈ s, p < g.size) :
    q ∈ g.closure s ↔ ∃ p ∈ s, g.EpsilonPath p q :=
  mem_closure? (closure?_eq hg hs)

theorem mem_unionOver_closures (hg : g.confined) (hs : ∀ p ∈ s, p < g.size) :
    q ∈ IdSet.unionOver g.closures s ↔ ∃ p ∈ s, g.EpsilonPath p q := by
  rw [IdSet.mem_unionOver]
  refine exists_congr fun p => and_congr_right fun hp => ?_
  have hlt := hs p hp
  have hone : ∀ r ∈ IdSet.ofList [p], r < g.size := by simpa using hlt
  simp [closures, hlt, mem_closure hg hone]

end Graph

end Acceptor
