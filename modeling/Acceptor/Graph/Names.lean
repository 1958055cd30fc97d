import Acceptor.Graph
import Mathlib.Data.List.Nodup

/-!
# States by name

A graph lists the names of its states in the order in which the states were added. Names need not
differ; where they do, a state is found by its name.

## Main results

* `Graph.names_addState`, `Graph.names_addEdge`: what building a graph does to its names.
* `Graph.find?_eq_some`: states with different names are found by their places.
-/

namespace Acceptor

namespace Graph

variable {g : Graph} {ns : List String} {name : String} {p q : Nat} {l : Label}

/-- The names of the states, in order. -/
def names (g : Graph) : List String := g.states.toList.map State.name

theorem getElem?_names : g.names[q]? = (g.states[q]?).map State.name := by simp [names]

@[simp] theorem length_names (g : Graph) : g.names.length = g.size := by simp [names, size]

@[simp] theorem names_empty : (∅ : Graph).names = [] := rfl

@[simp] theorem names_addState : (g.addState name).names = g.names ++ [name] := by
  simp [names, addState]

@[simp] theorem names_addEdge : (g.addEdge p l q).names = g.names := by
  refine List.ext_getElem? fun i => ?_
  rw [getElem?_names, getElem?_names, addEdge, Array.getElem?_modify]
  split <;> simp [Function.comp_def]

theorem names_foldl_addState : (ns.foldl addState g).names = g.names ++ ns := by
  induction ns generalizing g with
  | nil => simp
  | cons name ns ih => simp [ih]

theorem find?_eq : g.find? name = g.names.findIdx? (· == name) := by
  obtain ⟨⟨states⟩⟩ := g
  simp [find?, names, Function.comp_def]

theorem find?_eq_none : g.find? name = none ↔ name ∉ g.names := by
  rw [find?_eq, List.findIdx?_eq_none_iff]
  simp only [beq_eq_false_iff_ne]
  exact ⟨fun h hmem => h name hmem rfl, fun h x hx heq => h (heq ▸ hx)⟩

/-- Where no name occurs twice, a name is found at its only place. -/
theorem find?_eq_some (hg : g.names.Nodup) : g.find? name = some q ↔ g.names[q]? = some name := by
  rw [find?_eq, List.findIdx?_eq_some_iff_getElem, List.getElem?_eq_some_iff]
  refine exists_congr fun hq => ⟨fun h => eq_of_beq h.1, fun h => ⟨beq_iff_eq.mpr h, ?_⟩⟩
  intro j hj heq
  have hjq : j = q := hg.getElem_inj_iff.mp ((eq_of_beq heq).trans h.symm)
  exact Nat.lt_irrefl q (hjq ▸ hj)

end Graph

end Acceptor
