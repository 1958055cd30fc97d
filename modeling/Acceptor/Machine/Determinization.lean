import Acceptor.IdSet.Family
import Acceptor.Machine.Acceptance

/-!
# Determinization

The deterministic machine has one state for each set of states that tracking can come to, numbered
in the order of discovery from the initial set. On every character of the alphabet, and on the
wildcard if the machine has one, it moves from set to set as tracking does. The empty set is a state
like any other.

## Main results

* `Machine.movesBy_table`, `Machine.movesFrom?_table`: the tabulated moves are the moves of
  tracking.

## Implementation notes

The moves of the single states are tabulated by label, since a set moves to the union of what its
members move to. Whether a move leads to a set that can be held is not asked. A set of states can be
held, and the search fails when it follows any other set.
-/

namespace Acceptor

namespace Machine

/-! ### Moves of sets -/

/-- Where a label leads from each state by itself. -/
def row (m : Machine) (l : Label) : Array IdSet :=
  (Array.range m.size).map fun q => m.move (.ofList [q]) l

/-- For each label that is read, where it leads from each state by itself. -/
def table (m : Machine) : List (Label × Array IdSet) := m.readLabels.map fun l => (l, m.row l)

theorem table_nodup (m : Machine) : (m.table.map Prod.fst).Nodup := by
  simpa [table, Function.comp_def] using m.readLabels_nodup

/-- The moves from a set of states by a table, one for each label. -/
def movesBy (table : List (Label × Array IdSet)) (s : IdSet) : List IdSet :=
  table.map fun r => .unionOver r.2 s

theorem mem_move {m : Machine} {s : IdSet} {l : Label} {r : Nat} :
    r ∈ m.move s l ↔ ∃ q ∈ s, r ∈ m.move (.ofList [q]) l := by
  cases l <;> simp [move]

theorem unionOver_row (m : Machine) (l : Label) (s : IdSet) :
    IdSet.unionOver (m.row l) s = m.move s l := by
  refine IdSet.ext_mem fun r => ?_
  rw [row, IdSet.mem_unionOver_range, mem_move]
  intro q hq
  refine IdSet.ext_mem fun r => ?_
  cases l <;> simp [move, Graph.step_eq, Graph.targets_eq_nil hq]

theorem movesBy_table (m : Machine) (s : IdSet) :
    movesBy m.table s = m.readLabels.map (m.move s) := by
  simp [movesBy, table, unionOver_row]

/-- The moves from a set of states, given the table. With nothing to read the members are not
looked at. -/
def movesFrom? (m : Machine) (table : List (Label × Array IdSet)) (s : IdSet) :
    Option (List IdSet) :=
  if table.isEmpty || m.graph.covers s then some (movesBy table s) else none

theorem movesFrom?_table (m : Machine) (s : IdSet) : m.movesFrom? m.table s =
    if m.readLabels = [] ∨ m.graph.covers s then some (m.readLabels.map (m.move s)) else none := by
  rw [movesFrom?, movesBy_table]
  simp [table]

/-! ### The machine of the sets -/

/-- The sets of states that tracking can come to, in the order of discovery. -/
def subsets? (m : Machine) : Option (List IdSet) := do
  let start ← m.initialSet?
  let table := m.table
  Search.explore? id (m.movesFrom? table) (1 <<< m.size) [start]

/-- The name of a set of states: its members written one after the other. -/
def subsetName (s : IdSet) : String :=
  if s.isEmpty then "∅" else .join (s.toList.map toString)

/-- The state for a set, its moves leading to places in the list of all sets. -/
def subsetState (table : List (Label × Array IdSet)) (hn : (table.map Prod.fst).Nodup)
    (subsets : List IdSet) (s : IdSet) : State where
  name := subsetName s
  edges := .ofGroups (table.map fun r => (r.1, [subsets.idxOf (IdSet.unionOver r.2 s)]))
    (by simpa [Function.comp_def] using hn) fun g hg => by
      obtain ⟨r, -, rfl⟩ := List.mem_map.mp hg
      simp

/-- The places of the sets that share a member with the set of the final ids. -/
def finalPlaces (finals : IdSet) (subsets : List IdSet) : List Nat :=
  (subsets.zipIdx.filter fun p => p.1.meets finals).map Prod.snd

/-- The deterministic machine of the sets of states. It fails if the set of the initial or that of
the final ids cannot be held, or if a character is to be read from an id that is no state. -/
def determinize? (m : Machine) : Option Machine := do
  let finals ← m.finalSet?
  let subsets ← m.subsets?
  let table := m.table
  return { m with
    graph := ⟨(subsets.map (subsetState table m.table_nodup subsets)).toArray⟩
    initial := [0]
    finals := finalPlaces finals subsets }

end Machine

end Acceptor
