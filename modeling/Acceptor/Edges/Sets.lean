import Acceptor.Edges
import Acceptor.IdSet

/-!
# Edges to sets of states

Edges given by one set of targets for each label. The targets of a label are listed in increasing
order, and a label without a target has no group.

## Main results

* `Edges.targets_ofSets`: the targets of a label are the members of its set.
-/

namespace Acceptor

namespace Edges

variable {gs : List (Label × IdSet)} {l : Label} {s : IdSet}

/-- The edges that lead to every member of the set of their label. -/
def ofSets (gs : List (Label × IdSet)) (hn : (gs.map Prod.fst).Nodup) : Edges :=
  ofGroups (gs.map fun g => (g.1, g.2.toList)) (by simpa [Function.comp_def] using hn) (by
    simp only [List.mem_map]
    rintro _ ⟨g, -, rfl⟩
    exact g.2.toList_sorted.imp Nat.ne_of_lt)

theorem targets_ofSets {hn : (gs.map Prod.fst).Nodup} (h : (l, s) ∈ gs) :
    (ofSets gs hn).targets l = s.toList := by
  rw [ofSets, targets_ofGroups]
  have hmem : (l, s.toList) ∈ gs.map fun g => (g.1, g.2.toList) := List.mem_map_of_mem h
  exact targetsIn_of_mem (by simpa [Function.comp_def] using hn) hmem

theorem targets_ofSets_of_not_mem {hn : (gs.map Prod.fst).Nodup} (h : l ∉ gs.map Prod.fst) :
    (ofSets gs hn).targets l = [] := by
  rw [ofSets, targets_ofGroups]
  exact targetsIn_eq_nil (by simpa [Function.comp_def] using h)

end Edges

end Acceptor
