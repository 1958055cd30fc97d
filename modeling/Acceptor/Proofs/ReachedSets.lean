import Acceptor.Machine.Powerset
import Acceptor.Proofs.AccessiblePart

/-!
# Determinization lists the sets that are reached

The list that determinization makes is exact: it holds the sets that images lead to from the initial
set, each once. Only the edges and the initial ids have to be in range for this. A final id may be no
state, as long as a set can hold it, letters may be outside the alphabet and there may be empty moves,
which no image follows. Since every set in the list is reached, so is every state of the result, and taking its
accessible part changes nothing.

## Main results

* `Machine.Subsets.mem_iff`: the sets listed are the sets reached.
* `Machine.powerset_ofSubsets`: the states of the result stand for them.
* `Machine.determinize?_powerset`: determinization succeeds and is exact.
-/

namespace Acceptor

namespace Machine

variable {m d : Machine} {sets : List IdSet} {s : IdSet} {l : Label}

/-- Labels that are read lead from sets that are reached to sets that are reached. -/
theorem SetReached.move (h : m.SetReached s) (hl : l ∈ m.readLabels) :
    m.SetReached (m.move s l) := by
  rcases mem_readLabels.mp hl with ⟨c, hc, rfl⟩ | ⟨rfl, hany⟩
  · exact h.letter hc
  · exact h.any hany

theorem setReached_of_reach (h : Search.Reach (m.movesFrom? m.table) [m.initialSet] s) :
    m.SetReached s := by
  induction h with
  | root hs =>
    rw [List.mem_singleton.mp hs]
    exact .initial
  | step _ hss ht ih =>
    obtain ⟨l, hl, rfl⟩ := (mem_movesFrom? hss).mp ht
    exact ih.move hl

/-- The sets listed are the sets reached. -/
theorem Subsets.mem_iff (hsets : m.Subsets sets) : s ∈ sets ↔ m.SetReached s := by
  refine ⟨fun hs => setReached_of_reach (hsets.reach s hs), fun h => ?_⟩
  induction h with
  | initial => exact List.mem_of_getElem? hsets.first
  | letter _ hc ih => exact hsets.move_mem _ ih (.letter _) (letter_mem_readLabels.mpr hc)
  | any _ hany ih => exact hsets.move_mem _ ih .any (any_mem_readLabels.mpr hany)

theorem powerset_ofSubsets (hsets : m.Subsets sets) : m.Powerset sets (m.ofSubsets sets) where
  nodup := hsets.nodup
  mem_iff _ := hsets.mem_iff
  lt := hsets.lt
  size := size_ofSubsets
  first := hsets.first
  initial := rfl
  letter i s c hs hc := by
    have hl : .letter c ∈ m.readLabels := letter_mem_readLabels.mpr hc
    have hmem := List.mem_of_getElem? hs
    exact ⟨Graph.reading?_eq (hsets.lt s hmem) (hsets.lt _ (hsets.move_mem s hmem _ hl)), _,
      by rw [targets_ofSubsets hs, if_pos hl], getElem?_idxOf_move hsets hs hl⟩
  any i s hs hany := by
    have hl : .any ∈ m.readLabels := any_mem_readLabels.mpr hany
    have hmem := List.mem_of_getElem? hs
    exact ⟨Graph.image?_eq (hsets.lt s hmem) (hsets.lt _ (hsets.move_mem s hmem _ hl)), _,
      by rw [targets_ofSubsets hs, if_pos hl], getElem?_idxOf_move hsets hs hl⟩
  label i l hl := by
    obtain ⟨r, hr⟩ := List.exists_mem_of_ne_nil _ hl
    obtain ⟨-, -, hread, -⟩ := mem_targets_ofSubsets hr
    exact mem_readLabels.mp hread
  finals _ := mem_finals_ofSubsets
  alphabet := rfl

/-- The state of every set that is reached is accessible. -/
theorem Powerset.exists_accessible (h : m.Powerset sets d) (hs : m.SetReached s) :
    ∃ i, sets[i]? = some s ∧ d.Accessible i := by
  induction hs with
  | initial => exact ⟨0, h.first, .initial (by simp [h.initial])⟩
  | letter _ hc ih =>
    obtain ⟨i, hi, haccessible⟩ := ih
    obtain ⟨-, j, hj, hset⟩ := h.letter i _ _ hi hc
    exact ⟨j, hset, haccessible.step (by rw [hj, List.mem_singleton])⟩
  | any _ hany ih =>
    obtain ⟨i, hi, haccessible⟩ := ih
    obtain ⟨-, j, hj, hset⟩ := h.any i _ hi hany
    exact ⟨j, hset, haccessible.step (by rw [hj, List.mem_singleton])⟩

theorem Powerset.accessible (h : m.Powerset sets d) : ∀ i < d.size, d.Accessible i :=
  forall_accessible h.nodup h.size fun s hs => h.exists_accessible ((h.mem_iff s).mp hs)

/-- **Determinization is exact.** Let the initial ids and the targets of edges be states. If the final
ids are in bounds, determinization gives a machine whose states stand for the sets that images lead
to from the initial set. These are at most `2 ^ n` for `n` states, and the machine is its own
accessible part. Determinization fails exactly if a final id is no state and out of bounds. -/
theorem determinize?_powerset (hinitial : ∀ q ∈ m.initial, q < m.size)
    (htargets : ∀ p l, ∀ q ∈ m.graph.targets p l, q < m.size) :
    ((∀ q ∈ m.finals, q < IdSet.idBound) →
      ∃ d sets, m.determinize? = some d ∧ m.Powerset sets d ∧ d.size ≤ 2 ^ m.size ∧
        d.accessible? = some d) ∧
    (m.determinize? = none ↔ ∃ q ∈ m.finals, m.size ≤ q ∧ IdSet.idBound ≤ q) := by
  obtain ⟨sets, hsome, hsets⟩ := exists_subsets hinitial (Graph.confined_iff.mpr htargets)
  have hpowerset := powerset_ofSubsets hsets
  refine ⟨fun hfinals => ⟨m.ofSubsets sets, sets, ?_, hpowerset, ?_,
    accessible?_eq_self (meets_ofSubsets hsets) hpowerset.accessible⟩, ?_⟩
  · rw [determinize?_eq fun q hq => .inr (hfinals q hq), hsome, Option.map_some]
  · rw [hpowerset.size]
    exact IdSet.length_le_two_pow hsets.nodup hsets.lt
  · rw [← finalSet?_eq_none, determinize?, hsome]
    cases m.finalSet? <;> simp

/-- Two states, both initial. No kind accepts the machine, for it has an edge on a letter outside
its alphabet and a final id that is no state. -/
def unchecked : Machine where
  graph := ⟨#[⟨"p", .ofList [(.letter 'a', 1), (.any, 0), (.epsilon, 1)]⟩,
    ⟨"q", .ofList [(.letter 'b', 0), (.epsilon, 0)]⟩]⟩
  initial := [1, 0, 1]
  finals := [1, 2]
  alphabet := .ofList ['a', 'c']

theorem determinize?_powerset_unchecked :
    (∀ q ∈ unchecked.initial, q < unchecked.size) ∧
    (∀ p l, ∀ q ∈ unchecked.graph.targets p l, q < unchecked.size) ∧
    (∀ q ∈ unchecked.finals, q < IdSet.idBound) ∧
    ∃ d sets, unchecked.determinize? = some d ∧ unchecked.Powerset sets d ∧
      d.size ≤ 2 ^ unchecked.size ∧ d.accessible? = some d :=
  have hinitial : ∀ q ∈ unchecked.initial, q < unchecked.size := by decide
  have htargets : ∀ p l, ∀ q ∈ unchecked.graph.targets p l, q < unchecked.size :=
    Graph.confined_iff.mp (by decide +kernel)
  have hfinals : ∀ q ∈ unchecked.finals, q < IdSet.idBound := by decide
  ⟨hinitial, htargets, hfinals, (determinize?_powerset hinitial htargets).1 hfinals⟩

/-- One state and the first final id that cannot be held. -/
def outsized : Machine where
  graph := ⟨#[⟨"p", ∅⟩]⟩
  initial := [0]
  finals := [IdSet.idBound]
  alphabet := ∅

/-- A final id that cannot be held makes determinization fail. -/
theorem not_forall_determinize?_powerset : ¬ ∀ m : Machine, (∀ q ∈ m.initial, q < m.size) →
    (∀ p l, ∀ q ∈ m.graph.targets p l, q < m.size) →
    ∃ d sets, m.determinize? = some d ∧ m.Powerset sets d ∧ d.size ≤ 2 ^ m.size ∧
      d.accessible? = some d := by
  intro hall
  have htargets : ∀ p l, ∀ q ∈ outsized.graph.targets p l, q < outsized.size :=
    Graph.confined_iff.mp (by decide +kernel)
  obtain ⟨d, -, hd, -⟩ := hall outsized (by decide) htargets
  have hheld : outsized.finalSet? = none := by decide +kernel
  simp [determinize?, hheld] at hd

end Machine

end Acceptor
