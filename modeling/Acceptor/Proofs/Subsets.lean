import Acceptor.Proofs.Inclusion
import Acceptor.Proofs.Reading
import Mathlib.Data.Finset.Powerset
import Mathlib.Data.Finset.Range
import Mathlib.Data.List.Basic

/-!
# The machine of the sets of states

Determinization lists the sets that tracking can come to. The list starts with the initial set, has
no repeats and is closed under the moves on every label that is read. These facts are all that is
needed to see that a walk in the machine of the sets keeps the set of tracking as its state.

## Main results

* `Machine.exists_subsets`: the search for sets ends, within fuel for every set of states.
* `Machine.meets_ofSubsets`: the machine of the sets has the shape of a deterministic automaton.
* `Machine.walksFrom_ofSubsets`: from a set it accepts what runs from the members of the set read.
-/

namespace Acceptor

/-- A repeat-free list of sets of numbers below `n` has at most `2 ^ n` members. -/
theorem IdSet.length_le_two_pow {ss : List IdSet} {n : Nat} (hn : ss.Nodup)
    (h : ∀ s ∈ ss, ∀ q ∈ s, q < n) : ss.length ≤ 2 ^ n := by
  have hinj : Function.Injective fun s : IdSet => s.toList.toFinset := by
    intro s t hst
    refine IdSet.ext_mem fun q => ?_
    have hq := congrArg (q ∈ ·) hst
    simpa using hq
  have hsub : (ss.map fun s => s.toList.toFinset).toFinset ⊆ (Finset.range n).powerset := by
    intro t ht
    obtain ⟨s, hs, rfl⟩ := List.mem_map.mp (List.mem_toFinset.mp ht)
    refine Finset.mem_powerset.mpr fun q hq => ?_
    exact Finset.mem_range.mpr (h s hs q (by simpa using hq))
  have hcard := Finset.card_le_card hsub
  rwa [List.toFinset_card_of_nodup (hn.map hinj), List.length_map, Finset.card_powerset,
    Finset.card_range] at hcard

namespace Machine

variable {m : Machine} {k : Kind} {q r i j : Nat} {l : Label} {c : Char} {w : List Char}
  {s t : IdSet} {sets : List IdSet}

/-! ### Moves -/

theorem lt_of_mem_move (hconfined : m.graph.confined) (h : q ∈ m.move s l) : q < m.size := by
  cases l with
  | letter c => exact Graph.lt_size_of_mem_reading hconfined h
  | any => exact Graph.lt_size_of_mem_image hconfined h
  | epsilon => exact Graph.lt_size_of_mem_image hconfined h

/-- Larger sets move to larger sets. -/
theorem move_mono (h : ∀ q ∈ s, q ∈ t) : ∀ q ∈ m.move s l, q ∈ m.move t l := by
  intro r hr
  obtain ⟨q, hq, hr⟩ := mem_move.mp hr
  exact mem_move.mpr ⟨q, h q hq, hr⟩

/-- A letter takes the wildcard edges along. -/
theorem move_any_subset (m : Machine) (s : IdSet) (c : Char) :
    ∀ q ∈ m.move s .any, q ∈ m.move s (.letter c) := by
  intro r hr
  obtain ⟨q, hq, hr⟩ := Graph.mem_image.mp hr
  exact Graph.mem_reading.mpr ⟨q, hq, Graph.mem_step.mpr ⟨.any, rfl, hr⟩⟩

theorem targets_any_eq_nil (h : .any ∉ m.readLabels) (q : Nat) :
    m.graph.targets q .any = [] := by
  refine List.eq_nil_iff_forall_not_mem.mpr fun r hr => h ?_
  exact any_mem_readLabels.mpr (Graph.has_iff.mpr ⟨q, r, hr⟩)

/-- Outside the alphabet a character leads where the wildcard does. -/
theorem reading_of_not_mem (hm : m.Meets k) (hc : c ∉ m.alphabet) (s : IdSet) :
    m.graph.reading s c = m.move s .any := by
  refine IdSet.ext_mem fun q => ?_
  show q ∈ m.graph.reading s c ↔ q ∈ m.graph.image s .any
  rw [Graph.mem_reading, Graph.mem_image]
  simp [Graph.step_eq, hm.eq_nil_of_not_mem hc]

/-! ### The sets that are listed -/

/-- A list of sets of states that tracking can come to. -/
structure Subsets (m : Machine) (sets : List IdSet) : Prop where
  /-- No set is listed twice. -/
  nodup : sets.Nodup
  /-- The initial set comes first. -/
  first : sets[0]? = some m.initialSet
  /-- The members are states. -/
  lt : ∀ s ∈ sets, ∀ q ∈ s, q < m.size
  /-- Moves lead to listed sets. -/
  move_mem : ∀ s ∈ sets, ∀ l ∈ m.readLabels, m.move s l ∈ sets
  /-- Every set is reached by moves from the initial set. -/
  reach : ∀ s ∈ sets, Search.Reach (m.movesFrom? m.table) [m.initialSet] s

theorem mem_movesFrom? {ss : List IdSet} (h : m.movesFrom? m.table s = some ss) :
    t ∈ ss ↔ ∃ l ∈ m.readLabels, m.move s l = t := by
  rw [movesFrom?_table] at h
  split at h
  · obtain rfl := Option.some.inj h
    rw [List.mem_map]
  · cases h

theorem movesFrom?_isSome (hs : ∀ q ∈ s, q < m.size) : (m.movesFrom? m.table s).isSome := by
  rw [movesFrom?_table, if_pos (.inr (Graph.covers_iff.mpr hs))]
  rfl

theorem lt_of_reach (hinitial : ∀ q ∈ m.initial, q < m.size) (hconfined : m.graph.confined)
    (h : Search.Reach (m.movesFrom? m.table) [m.initialSet] s) : ∀ q ∈ s, q < m.size := by
  induction h with
  | root hs =>
    intro q hq
    rw [List.mem_singleton.mp hs] at hq
    exact hinitial q (mem_initialSet.mp hq)
  | step _ hss ht =>
    obtain ⟨l, -, rfl⟩ := (mem_movesFrom? hss).mp ht
    exact fun q hq => lt_of_mem_move hconfined hq

theorem subsets?_eq (hinitial : ∀ q ∈ m.initial, q < m.size) : m.subsets? =
    Search.explore? id (m.movesFrom? m.table) (1 <<< m.size) [m.initialSet] := by
  rw [subsets?, initialSet?_eq fun q hq => .inl (hinitial q hq)]
  rfl

theorem exists_subsets (hinitial : ∀ q ∈ m.initial, q < m.size) (hconfined : m.graph.confined) :
    ∃ sets, m.subsets? = some sets ∧ m.Subsets sets := by
  have hlt {s : IdSet} (hs : Search.Reach (m.movesFrom? m.table) [m.initialSet] s) :
      ∀ q ∈ s, q < m.size := lt_of_reach hinitial hconfined hs
  rw [subsets?_eq hinitial]
  obtain ⟨sets, hsets, hmem⟩ : ∃ sets,
      Search.explore? id (m.movesFrom? m.table) (1 <<< m.size) [m.initialSet] = some sets ∧
      ∀ s, s ∈ sets ↔ Search.Reach (m.movesFrom? m.table) [m.initialSet] s := by
    refine Search.exists_explore? (fun s hs => movesFrom?_isSome (hlt hs))
      (fun _ _ _ _ h => h) fun ss hss hn => ?_
    rw [Nat.one_shiftLeft]
    exact IdSet.length_le_two_pow (by simpa using hn) fun s hs => hlt (hss s hs)
  refine ⟨sets, hsets, ?_, ?_, fun s hs => hlt ((hmem s).mp hs), ?_,
    fun s hs => (hmem s).mp hs⟩
  · simpa using Search.explore?_nodup hsets
  · obtain ⟨rest, hrest⟩ := Search.explore?_roots hsets
    simp [← hrest, Search.fresh]
  · intro s hs l hl
    have hreach := (hmem s).mp hs
    obtain ⟨ss, hss⟩ := Option.isSome_iff_exists.mp (movesFrom?_isSome (hlt hreach))
    exact (hmem _).mpr (.step hreach hss ((mem_movesFrom? hss).mpr ⟨l, hl, rfl⟩))

/-! ### The machine of the sets -/

/-- The deterministic machine on a list of sets. -/
def ofSubsets (m : Machine) (sets : List IdSet) : Machine :=
  { m with
    graph := ⟨(sets.map (subsetState m.table m.table_nodup sets)).toArray⟩
    initial := [0]
    finals := finalPlaces m.finalSet sets }

theorem determinize?_eq (h : ∀ q ∈ m.finals, q < m.size ∨ q < IdSet.idBound) :
    m.determinize? = m.subsets?.map m.ofSubsets := by
  rw [determinize?, finalSet?_eq h]
  cases m.subsets? <;> rfl

@[simp] theorem graph_size_ofSubsets : (m.ofSubsets sets).graph.size = sets.length := by
  simp [Graph.size, ofSubsets]

@[simp] theorem size_ofSubsets : (m.ofSubsets sets).size = sets.length := graph_size_ofSubsets

@[simp] theorem initial_ofSubsets : (m.ofSubsets sets).initial = [0] := rfl

@[simp] theorem alphabet_ofSubsets : (m.ofSubsets sets).alphabet = m.alphabet := rfl

theorem mem_finals_ofSubsets :
    i ∈ (m.ofSubsets sets).finals ↔ ∃ s, sets[i]? = some s ∧ ∃ q ∈ s, q ∈ m.finals := by
  simp only [ofSubsets, finalPlaces, List.mem_map, List.mem_filter, Prod.exists,
    List.mk_mem_zipIdx_iff_getElem?, IdSet.meets_iff, mem_finalSet]
  constructor
  · rintro ⟨s, j, ⟨hs, hq⟩, rfl⟩
    exact ⟨s, hs, hq⟩
  · rintro ⟨s, hs, hq⟩
    exact ⟨s, i, ⟨hs, hq⟩, rfl⟩

theorem targets_subsetState (hl : l ∈ m.readLabels) :
    (subsetState m.table m.table_nodup sets s).edges.targets l = [sets.idxOf (m.move s l)] := by
  have hg : (l, [sets.idxOf (m.move s l)]) ∈
      m.table.map fun r => (r.1, [sets.idxOf (IdSet.unionOver r.2 s)]) := by
    refine List.mem_map.mpr ⟨(l, m.row l), List.mem_map.mpr ⟨l, hl, rfl⟩, ?_⟩
    rw [unionOver_row]
  rw [subsetState, Edges.targets_ofGroups]
  exact Edges.targetsIn_of_mem (by simpa [Function.comp_def] using m.table_nodup) hg

theorem targets_subsetState_eq_nil (hl : l ∉ m.readLabels) :
    (subsetState m.table m.table_nodup sets s).edges.targets l = [] := by
  rw [subsetState, Edges.targets_ofGroups]
  exact Edges.targetsIn_eq_nil (by simpa [table, Function.comp_def] using hl)

theorem targets_ofSubsets (hs : sets[i]? = some s) (l : Label) :
    (m.ofSubsets sets).graph.targets i l =
      if l ∈ m.readLabels then [sets.idxOf (m.move s l)] else [] := by
  have hstate : (m.ofSubsets sets).graph.states[i]? =
      some (subsetState m.table m.table_nodup sets s) := by simp [ofSubsets, hs]
  rw [Graph.targets_eq_of_getElem? hstate]
  split
  · next hl => exact targets_subsetState hl
  · next hl => exact targets_subsetState_eq_nil hl

theorem mem_targets_ofSubsets (h : r ∈ (m.ofSubsets sets).graph.targets i l) :
    ∃ s, sets[i]? = some s ∧ l ∈ m.readLabels ∧ r = sets.idxOf (m.move s l) := by
  have hi : i < sets.length := by simpa using Graph.lt_size_of_mem_targets h
  have hs : sets[i]? = some sets[i] := List.getElem?_eq_getElem hi
  rw [targets_ofSubsets hs] at h
  split at h
  · next hl => exact ⟨_, hs, hl, List.mem_singleton.mp h⟩
  · cases h

theorem getElem?_idxOf_move (hsets : m.Subsets sets) (hs : sets[i]? = some s)
    (hl : l ∈ m.readLabels) : sets[sets.idxOf (m.move s l)]? = some (m.move s l) :=
  List.getElem?_idxOf (hsets.move_mem s (List.mem_of_getElem? hs) l hl)

theorem meets_ofSubsets (hsets : m.Subsets sets) : (m.ofSubsets sets).Meets .dfa := by
  have hpos : 0 < sets.length := (List.getElem?_eq_some_iff.mp hsets.first).1
  refine ⟨by simp, fun _ => rfl, ?_, fun q hq => ?_, fun p l q hq => ?_, fun p c hc => ?_,
    fun _ p => ?_, fun _ p hp c hc => ?_, fun _ p => ?_⟩
  · simpa using hpos
  · obtain ⟨s, hs, -⟩ := mem_finals_ofSubsets.mp hq
    simpa using (List.getElem?_eq_some_iff.mp hs).1
  · obtain ⟨s, hs, hl, rfl⟩ := mem_targets_ofSubsets hq
    have hmove := getElem?_idxOf_move hsets hs hl
    simpa using (List.getElem?_eq_some_iff.mp hmove).1
  · obtain ⟨q, hq⟩ := List.exists_mem_of_ne_nil _ hc
    obtain ⟨-, -, hl, -⟩ := mem_targets_ofSubsets hq
    rw [alphabet_ofSubsets]
    exact letter_mem_readLabels.mp hl
  · refine List.eq_nil_iff_forall_not_mem.mpr fun q hq => ?_
    obtain ⟨-, -, hl, -⟩ := mem_targets_ofSubsets hq
    exact epsilon_not_mem_readLabels hl
  · rw [size_ofSubsets] at hp
    rw [alphabet_ofSubsets] at hc
    rw [targets_ofSubsets (List.getElem?_eq_getElem hp), if_pos (letter_mem_readLabels.mpr hc)]
    exact ⟨_, rfl⟩
  · by_cases hp : p < sets.length
    · rw [targets_ofSubsets (List.getElem?_eq_getElem hp)]
      split <;> simp
    · rw [Graph.targets_eq_nil (by simpa using hp)]
      simp

/-! ### Walks -/

theorem follow?_ofSubsets (hs : sets[i]? = some s) (hl : l ∈ m.readLabels) :
    (m.ofSubsets sets).follow? i l = some (sets.idxOf (m.move s l)) := by
  rw [follow?, targets_ofSubsets hs, if_pos hl]
  rfl

theorem follow?_ofSubsets_eq_none (hs : sets[i]? = some s) (hl : l ∉ m.readLabels)
    (hany : .any ∉ m.readLabels) : (m.ofSubsets sets).follow? i l = none := by
  rw [follow?, targets_ofSubsets hs, targets_ofSubsets hs, if_neg hl, if_neg hany]
  rfl

/-- One character on, the walk is at the set that tracking comes to, or it has ended where tracking
has lost every state. -/
theorem follow?_ofSubsets_letter (hm : m.Meets k) (hsets : m.Subsets sets) (hs : sets[i]? = some s)
    (c : Char) :
    (∃ j, (m.ofSubsets sets).follow? i (.letter c) = some j ∧
      sets[j]? = some (m.graph.reading s c)) ∨
    (m.ofSubsets sets).follow? i (.letter c) = none ∧ ∀ q, q ∉ m.graph.reading s c := by
  by_cases hc : c ∈ m.alphabet
  · have hl : .letter c ∈ m.readLabels := letter_mem_readLabels.mpr hc
    exact .inl ⟨_, follow?_ofSubsets hs hl, getElem?_idxOf_move hsets hs hl⟩
  · rw [reading_of_not_mem hm hc]
    by_cases hany : .any ∈ m.readLabels
    · refine .inl ⟨_, ?_, getElem?_idxOf_move hsets hs hany⟩
      rw [follow?_of_not_mem (meets_ofSubsets hsets) hc]
      exact follow?_ofSubsets hs hany
    · refine .inr ⟨follow?_ofSubsets_eq_none hs (by simpa using hc) hany, ?_⟩
      intro q hq
      obtain ⟨p, -, hq⟩ := Graph.mem_image.mp hq
      simp [targets_any_eq_nil hany] at hq

/-- **The walk keeps the set of tracking as its state.** -/
theorem walksFrom_ofSubsets (hm : m.Meets .nfa) (hsets : m.Subsets sets)
    (hs : sets[i]? = some s) :
    (m.ofSubsets sets).walksFrom i w ↔ ∃ p ∈ s, m.ReadsFrom p w := by
  have hepsilon := hm.no_epsilon (by simp)
  induction w generalizing i s with
  | nil =>
    rw [walksFrom_nil, mem_finals_ofSubsets]
    simp [readsFrom_nil hepsilon, hs]
  | cons c w ih =>
    rw [walksFrom_cons, exists_readsFrom_cons hepsilon]
    rcases follow?_ofSubsets_letter hm hsets hs c with ⟨j, hj, hset⟩ | ⟨hnone, hempty⟩
    · refine Iff.trans ?_ (ih hset)
      simp [hj]
    · rw [hnone]
      refine iff_of_false (by simp) ?_
      rintro ⟨q, hq, -⟩
      exact hempty q hq

end Machine

end Acceptor
