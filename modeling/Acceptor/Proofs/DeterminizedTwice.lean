import Acceptor.Machine.Renamed
import Acceptor.Proofs.ReachedSets
import Acceptor.Search.Renaming

/-!
# Determinizing a deterministic machine

The machine of the sets is deterministic, so without wildcards the sets that determinizing it comes
to have one member each. They are found in the order of the first time: the set of the state `i`
stands for the set that was found as number `i`, it moves to the sets that stand for where that one
moves, and searches do not depend on what their items are called. So the second machine of the sets
is the first one with other names.

With wildcards this is not so. A character of the alphabet also follows the wildcard edge beside its
own, and so a state moves to two states at once.

## Main results

* `Machine.readLabels_ofSubsets`, `Machine.move_standIn`: the moves of the second time.
* `Machine.subsets?_ofSubsets`: the sets that are found the second time.
* `Machine.ofSubsets_ofSubsets`: the machine of these sets.
* `Automaton.convert_dfa_twice`: the second determinization changes names only.
-/

namespace Acceptor

/-! ### Sets with one member -/

namespace IdSet

variable {i j : Nat}

theorem toList_singleton (i : Nat) : (ofList [i]).toList = [i] :=
  Sorted.eq_of_mem_iff (fun _ _ => Nat.lt_asymm) (toList_sorted _) (List.pairwise_singleton _ i)
    fun j => by rw [mem_toList, mem_ofList]

theorem singleton_inj : ofList [i] = ofList [j] ↔ i = j := by
  refine ⟨fun h => ?_, fun h => by rw [h]⟩
  have hmem : i ∈ ofList [j] := h ▸ mem_ofList.mpr (List.mem_singleton_self i)
  simpa using hmem

end IdSet

namespace Machine

variable {m : Machine} {sets sets' : List IdSet} {s : IdSet} {l : Label} {i : Nat}

theorem subsetName_singleton (i : Nat) : subsetName (.ofList [i]) = toString i := by
  have hne : (IdSet.ofList [i]).isEmpty = false := by
    rw [← Bool.not_eq_true, IdSet.isEmpty_iff]
    exact fun h => h i (by simp)
  rw [subsetName, hne, IdSet.toList_singleton]
  simp

/-! ### The machine of the sets -/

/-- The labels of a state of the machine of the sets, in order, each with one target. -/
theorem groups_subsetState :
    (subsetState m.table m.table_nodup sets s).edges.groups =
      m.readLabels.map fun l => (l, [sets.idxOf (m.move s l)]) := by
  have hgroups : (m.table.map fun r => (r.1, [sets.idxOf (IdSet.unionOver r.2 s)])) =
      m.readLabels.map fun l => (l, [sets.idxOf (m.move s l)]) := by
    simp [table, unionOver_row]
  show (m.table.map fun r => (r.1, [sets.idxOf (IdSet.unionOver r.2 s)])).filter
    (fun g => !g.2.isEmpty) = _
  rw [hgroups, List.filter_eq_self]
  intro g hg
  obtain ⟨l, -, rfl⟩ := List.mem_map.mp hg
  rfl

theorem getElem?_states_ofSubsets : (m.ofSubsets sets).graph.states[i]? =
    sets[i]?.map (subsetState m.table m.table_nodup sets) := by
  simp [ofSubsets]

theorem finals_ofSubsets_sorted : (m.ofSubsets sets).finals.Pairwise (· < ·) := by
  have hsub : (m.ofSubsets sets).finals.Sublist (sets.zipIdx.map Prod.snd) :=
    List.filter_sublist.map Prod.snd
  rw [List.zipIdx_map_snd] at hsub
  exact List.Pairwise.sublist hsub List.pairwise_lt_range'

/-- The machine of the sets has the labels of the machine that it comes of. -/
theorem readLabels_ofSubsets (hsets : m.Subsets sets) :
    (m.ofSubsets sets).readLabels = m.readLabels := by
  refine readLabels_congr alphabet_ofSubsets ?_
  constructor
  · intro h
    obtain ⟨q, r, hr⟩ := hasWildcard_iff.mp h
    obtain ⟨-, -, hl, -⟩ := mem_targets_ofSubsets hr
    exact any_mem_readLabels.mp hl
  · intro h
    refine hasWildcard_iff.mpr ⟨0, sets.idxOf (m.move m.initialSet .any), ?_⟩
    rw [targets_ofSubsets hsets.first, if_pos (any_mem_readLabels.mpr h)]
    exact List.mem_singleton_self _

/-! ### The second time -/

/-- The set that stands for another one: its place is the only member. -/
def standIn (sets : List IdSet) (s : IdSet) : IdSet := .ofList [sets.idxOf s]

theorem standIn_inj {t : IdSet} (hs : s ∈ sets) :
    standIn sets s = standIn sets t ↔ s = t := by
  rw [standIn, standIn, IdSet.singleton_inj, List.idxOf_inj hs]

theorem Subsets.idxOf_eq (hsets : m.Subsets sets) (hs : sets[i]? = some s) : sets.idxOf s = i :=
  place_unique hsets.nodup (List.getElem?_idxOf (List.mem_of_getElem? hs)) hs

theorem idxOf_map_standIn (hn : sets.Nodup) (hs : s ∈ sets) :
    (sets.map (standIn sets)).idxOf (standIn sets s) = sets.idxOf s := by
  have hnodup : (sets.map (standIn sets)).Nodup :=
    hn.map_on fun _ hs _ _ => (standIn_inj hs).mp
  refine place_unique hnodup (List.getElem?_idxOf (List.mem_map_of_mem hs)) ?_
  rw [List.getElem?_map, List.getElem?_idxOf hs, Option.map_some]

section WithoutWildcards

variable (hsets : m.Subsets sets) (hany : .any ∉ m.readLabels)

include hany

/-- A label leads from the set of one state to the set of one state. -/
theorem move_standIn (hs : s ∈ sets) (hl : l ∈ m.readLabels) :
    (m.ofSubsets sets).move (standIn sets s) l = standIn sets (m.move s l) := by
  obtain ⟨c, -, rfl⟩ := (mem_readLabels.mp hl).resolve_right fun h => hany (h.1 ▸ hl)
  have hi : sets[sets.idxOf s]? = some s := List.getElem?_idxOf hs
  refine IdSet.ext_mem fun r => ?_
  show r ∈ (m.ofSubsets sets).graph.reading (standIn sets s) c ↔ _
  simp [standIn, Graph.step_eq, targets_ofSubsets hi, hl, hany]

include hsets

theorem renaming_standIn :
    Search.Renaming id (m.movesFrom? m.table) id
      ((m.ofSubsets sets).movesFrom? (m.ofSubsets sets).table) (· ∈ sets) (standIn sets) where
  key_iff _ _ hs _ := standIn_inj hs
  keeps s ss hs hss t ht := by
    obtain ⟨l, hl, rfl⟩ := (mem_movesFrom? hss).mp ht
    exact hsets.move_mem s hs l hl
  next_eq s ss hs hss := by
    have hcovers : (m.ofSubsets sets).graph.covers (standIn sets s) :=
      Graph.covers_iff.mpr (by simpa [standIn] using List.idxOf_lt_length_of_mem hs)
    rw [movesFrom?_table, if_pos (.inr (Graph.covers_iff.mpr (hsets.lt s hs)))] at hss
    obtain rfl := Option.some.inj hss
    rw [movesFrom?_table, if_pos (.inr hcovers), readLabels_ofSubsets hsets, List.map_map]
    exact congrArg some (List.map_congr_left fun l hl => move_standIn hany hs hl)

/-- The sets that are found the second time stand for those of the first time. -/
theorem subsets?_ofSubsets (hsome : m.subsets? = some sets)
    (hsome' : (m.ofSubsets sets).subsets? = some sets') : sets' = sets.map (standIn sets) := by
  have hfirst : m.initialSet ∈ sets := List.mem_of_getElem? hsets.first
  have hinitial : ∀ q ∈ m.initial, q < m.size := fun q hq =>
    hsets.lt _ hfirst q (mem_initialSet.mpr hq)
  have hroots : [(m.ofSubsets sets).initialSet] = [m.initialSet].map (standIn sets) := by
    rw [List.map_singleton, standIn, hsets.idxOf_eq hsets.first]
    rfl
  rw [subsets?_eq hinitial] at hsome
  rw [subsets?_eq (meets_ofSubsets hsets).initial_lt, hroots] at hsome'
  exact (renaming_standIn hsets hany).explore?_eq (by simpa using hfirst) hsome hsome'

theorem subsetState_standIn (hs : sets[i]? = some s) :
    subsetState (m.ofSubsets sets).table (m.ofSubsets sets).table_nodup
        (sets.map (standIn sets)) (standIn sets s) =
      { subsetState m.table m.table_nodup sets s with name := toString i } := by
  have hmem := List.mem_of_getElem? hs
  have hname : subsetName (standIn sets s) = toString i := by
    rw [standIn, hsets.idxOf_eq hs, subsetName_singleton]
  have hedges : (subsetState (m.ofSubsets sets).table (m.ofSubsets sets).table_nodup
      (sets.map (standIn sets)) (standIn sets s)).edges =
        (subsetState m.table m.table_nodup sets s).edges := by
    refine Edges.eq_of_groups ?_
    rw [groups_subsetState, groups_subsetState, readLabels_ofSubsets hsets]
    refine List.map_congr_left fun l hl => ?_
    rw [move_standIn hany hmem hl, idxOf_map_standIn hsets.nodup (hsets.move_mem s hmem l hl)]
  exact State.mk.injEq .. ▸ ⟨hname, hedges⟩

theorem states_ofSubsets_ofSubsets :
    ((m.ofSubsets sets).ofSubsets (sets.map (standIn sets))).graph.states =
      (m.ofSubsets sets).graph.states.mapIdx fun i s => { s with name := toString i } := by
  refine Array.ext_getElem? fun i => ?_
  rw [Array.getElem?_mapIdx, getElem?_states_ofSubsets, getElem?_states_ofSubsets,
    List.getElem?_map]
  cases hs : sets[i]? with
  | none => rfl
  | some s => exact congrArg some (subsetState_standIn hsets hany hs)

omit hany in
theorem finals_ofSubsets_ofSubsets :
    ((m.ofSubsets sets).ofSubsets (sets.map (standIn sets))).finals =
      (m.ofSubsets sets).finals := by
  refine Sorted.eq_of_mem_iff (fun _ _ => Nat.lt_asymm) finals_ofSubsets_sorted
    finals_ofSubsets_sorted fun i => ?_
  rw [mem_finals_ofSubsets]
  constructor
  · rintro ⟨t, ht, q, hq, hfinal⟩
    rw [List.getElem?_map] at ht
    obtain ⟨s, hs, rfl⟩ := Option.map_eq_some_iff.mp ht
    have hqi : q = i := by simpa [standIn, hsets.idxOf_eq hs] using hq
    exact hqi ▸ hfinal
  · intro hfinal
    obtain ⟨s, hs, -⟩ := mem_finals_ofSubsets.mp hfinal
    exact ⟨standIn sets s, by rw [List.getElem?_map, hs, Option.map_some], i,
      by simp [standIn, hsets.idxOf_eq hs], hfinal⟩

/-- The machine of the sets of the second time is that of the first time under other names. -/
theorem ofSubsets_ofSubsets :
    (m.ofSubsets sets).ofSubsets (sets.map (standIn sets)) =
      (m.ofSubsets sets).renamed toString := by
  have hstates := states_ofSubsets_ofSubsets hsets hany
  have hfinals := finals_ofSubsets_ofSubsets hsets
  rw [renamed, ← hstates, ← hfinals]
  rfl

end WithoutWildcards

end Machine

namespace Automaton

open Machine

variable {m : Machine} {a : Automaton}

/-- Determinization gives the machine of the sets, which is its own accessible part. -/
theorem determinized_eq_ofSubsets (hm : m.Meets .nfa) :
    ∃ sets, m.subsets? = some sets ∧ m.Subsets sets ∧
      determinized m = .ok (m.ofSubsets sets) := by
  obtain ⟨sets, hsome, hsets⟩ := exists_subsets hm.initial_lt hm.confined
  have hself := accessible?_eq_self (meets_ofSubsets hsets) (powerset_ofSubsets hsets).accessible
  exact ⟨sets, hsome, hsets, by rw [determinized_of_subsets hm hsome hsets, hself, found]⟩

/-- Determinized once more, a machine without wildcards changes in names only. -/
theorem exists_determinized_twice (hm : m.Meets .nfa) (hany : .any ∉ m.readLabels) :
    ∃ d, determinized m = .ok d ∧ determinized d = .ok (d.renamed toString) := by
  obtain ⟨sets, hsome, hsets, hd⟩ := determinized_eq_ofSubsets hm
  obtain ⟨sets', hsome', -, he⟩ := determinized_eq_ofSubsets (meets_ofSubsets hsets).nfa
  obtain rfl := subsets?_ofSubsets hsets hany hsome hsome'
  exact ⟨_, hd, he.trans (congrArg Except.ok (ofSubsets_ofSubsets hsets hany))⟩

/-- **Determinizing twice changes names only.** An automaton without empty moves and wildcards
converts to a deterministic one. Taken as one that need not be deterministic and converted again,
this gives the same machine, state by state with the same edges in the same order, where each state
is named by its id. -/
theorem convert_dfa_twice (ha : ofMachine .nfa m = .ok a)
    (hany : ∀ q, m.graph.targets q .any = []) :
    ∃ d n, a.convert .dfa = .ok d ∧ d.convert .nfa = .ok n ∧
      n.convert .dfa = .ok ⟨.dfa, d.machine.renamed toString⟩ := by
  obtain ⟨hm, rfl⟩ := (ofMachine_eq_ok_iff_meets (by simp)).mp ha
  have hread : .any ∉ m.readLabels := by
    rw [any_mem_readLabels, hasWildcard_iff]
    rintro ⟨q, r, hr⟩
    simp [hany] at hr
  obtain ⟨d, hd, he⟩ := exists_determinized_twice hm hread
  exact ⟨⟨.dfa, d⟩, ⟨.nfa, d⟩, convert_nfa_dfa hd, rfl, convert_nfa_dfa he⟩

/-- Two states with the letters `a` and `b`, both initial. The letter `a` leads from the first to
both, and `b` leads back from the second, which is final. -/
def branching : Machine where
  graph := ⟨#[⟨"p", .ofList [(.letter 'a', 1), (.letter 'a', 0)]⟩,
    ⟨"q", .ofList [(.letter 'b', 0)]⟩]⟩
  initial := [1, 0]
  finals := [1]
  alphabet := .ofList ['a', 'b']

theorem convert_dfa_twice_branching :
    ofMachine .nfa branching = .ok ⟨.nfa, branching⟩ ∧
    (∀ q, branching.graph.targets q .any = []) ∧
    ∃ d n, convert ⟨.nfa, branching⟩ .dfa = .ok d ∧ d.convert .nfa = .ok n ∧
      n.convert .dfa = .ok ⟨.dfa, d.machine.renamed toString⟩ := by
  have h : ofMachine .nfa branching = .ok ⟨.nfa, branching⟩ := rfl
  have hany : ∀ q, branching.graph.targets q .any = [] :=
    targets_any_eq_nil (by decide +kernel)
  exact ⟨h, hany, convert_dfa_twice h hany⟩

/-- Two states with the letter `a`, both initial. Any character leads from the first back to it, and
the letter also to the second. -/
def lingering : Machine where
  graph := ⟨#[⟨"p", .ofList [(.letter 'a', 1), (.any, 0)]⟩, ⟨"q", ∅⟩]⟩
  initial := [0, 1]
  finals := [1]
  alphabet := .ofList ['a']

/-- With a wildcard there may be more states the second time. -/
example : (determinized lingering).map Machine.size = .ok 2 ∧
    (determinized lingering >>= determinized).map Machine.size = .ok 3 := by
  decide +kernel

end Automaton

end Acceptor
