import Acceptor.Proofs.Inclusion
import Mathlib.Data.List.Basic

/-!
# The accessible part keeps the walks

The accessible part of a machine holds the states that edges reach from the initial ones. No edge
leads out of it, so a walk that starts inside stays inside, and only the numbers of the states
change.

## Main results

* `Machine.accessible?_eq_some`: taking the accessible part of a well-formed machine succeeds.
* `Machine.targets_restrict`: the targets of a kept state, renumbered.
* `Machine.walksFrom_restrict`, `Machine.walks?_restrict`: walks inside the kept states.
-/

namespace Acceptor

namespace Machine

variable {m : Machine} {k : Kind} {p q r i : Nat} {l : Label} {w : List Char} {kept : List Nat}

/-! ### Accessible states -/

/-- What edges reach from the initial ids, any number of them. -/
inductive Accessible (m : Machine) : Nat → Prop where
  /-- Initial ids are accessible. -/
  | initial {q : Nat} : q ∈ m.initial → Accessible m q
  /-- Targets of accessible ids are accessible. -/
  | step {p q : Nat} {l : Label} : Accessible m p → q ∈ m.graph.targets p l → Accessible m q

theorem Accessible.lt (hm : m.Meets k) (h : m.Accessible q) : q < m.size := by
  cases h with
  | initial hq => exact hm.initial_lt q hq
  | step _ hq => exact hm.target_lt _ _ q hq

theorem mem_successors? {qs : List Nat} (h : m.graph.successors? p = some qs) :
    q ∈ qs ↔ ∃ l, q ∈ m.graph.targets p l := by
  obtain ⟨e, he, rfl⟩ := Option.map_eq_some_iff.mp h
  obtain ⟨s, hs, rfl⟩ := Option.map_eq_some_iff.mp he
  simp only [Graph.targets_eq_of_getElem? hs, List.mem_map]
  constructor
  · rintro ⟨⟨l, r⟩, he, rfl⟩
    exact ⟨l, Edges.mem_toList.mp he⟩
  · rintro ⟨l, hl⟩
    exact ⟨(l, q), Edges.mem_toList.mpr hl, rfl⟩

theorem successors?_isSome (h : p < m.size) : (m.graph.successors? p).isSome := by
  obtain ⟨s, hs⟩ := exists_state h
  simp [Graph.successors?, Graph.edges?, hs]

theorem reach_successors?_iff :
    Search.Reach m.graph.successors? m.initial q ↔ m.Accessible q := by
  constructor
  · intro h
    induction h with
    | root hq => exact .initial hq
    | step _ hqs hq ih =>
      obtain ⟨l, hl⟩ := (mem_successors? hqs).mp hq
      exact ih.step hl
  · intro h
    induction h with
    | initial hq => exact .root hq
    | step _ hq ih =>
      obtain ⟨qs, hqs⟩ :=
        Option.isSome_iff_exists.mp (successors?_isSome (Graph.lt_size_of_mem_targets hq))
      exact .step ih hqs ((mem_successors? hqs).mpr ⟨_, hq⟩)

theorem reached?_spec (hm : m.Meets k) :
    ∃ out, m.reached? = some out ∧ ∀ q, q ∈ out ↔ m.Accessible q := by
  have hlt (q : Nat) (h : Search.Reach m.graph.successors? m.initial q) : q < m.size :=
    (reach_successors?_iff.mp h).lt hm
  simp only [← reach_successors?_iff]
  exact Search.exists_explore? (fun q hq => successors?_isSome (hlt q hq)) (fun _ _ _ _ h => h)
    fun xs hxs hn => Search.length_le_of_lt (by simpa using hn) fun q hq => hlt q (hxs q hq)

/-- Taking the accessible part succeeds. It keeps the accessible states in their old order. -/
theorem accessible?_eq_some (hm : m.Meets k) :
    ∃ kept, m.accessible? = some (m.restrict kept) ∧ kept.Pairwise (· < ·) ∧
      ∀ q, q ∈ kept ↔ m.Accessible q := by
  obtain ⟨out, hout, hmem⟩ := reached?_spec hm
  have hfinals : m.finals.all (· < m.size) := by simpa using hm.final_lt
  refine ⟨(IdSet.ofList out).toList, ?_, IdSet.toList_sorted _, fun q => ?_⟩
  · simp [accessible?, hfinals, hout]
  · rw [IdSet.mem_toList, IdSet.mem_ofList, hmem]

/-! ### Restriction to some states -/

/-- The kept ids are states, and no edge leads out of them. -/
structure Closed (m : Machine) (kept : List Nat) : Prop where
  /-- Kept ids are states. -/
  lt : ∀ q ∈ kept, q < m.size
  /-- Targets of kept states are kept. -/
  target : ∀ q ∈ kept, ∀ l, ∀ r ∈ m.graph.targets q l, r ∈ kept

theorem closed_of_accessible (hm : m.Meets k) (h : ∀ q, q ∈ kept ↔ m.Accessible q) :
    m.Closed kept where
  lt q hq := ((h q).mp hq).lt hm
  target q hq _ r hr := (h r).mpr (((h q).mp hq).step hr)

theorem states_restrict (hlt : ∀ q ∈ kept, q < m.size) :
    (m.restrict kept).graph.states.toList = kept.map fun q =>
      { (m.graph.states[q]?).getD default with
        edges := ((m.graph.states[q]?).getD default).edges.renumber kept } := by
  rw [restrict, List.toList_toArray, List.filterMap_eq_map_iff_forall_eq_some]
  intro q hq
  obtain ⟨s, hs⟩ := exists_state (hlt q hq)
  simp [hs]

theorem getElem?_restrict (hlt : ∀ q ∈ kept, q < m.size) (hi : kept[i]? = some q) {s : State}
    (hs : m.graph.states[q]? = some s) :
    (m.restrict kept).graph.states[i]? = some { s with edges := s.edges.renumber kept } := by
  rw [← Array.getElem?_toList, states_restrict hlt, List.getElem?_map, hi]
  simp [hs]

theorem targets_restrict (hlt : ∀ q ∈ kept, q < m.size) (hi : kept[i]? = some q) (l : Label) :
    (m.restrict kept).graph.targets i l = Edges.renumbered kept (m.graph.targets q l) := by
  obtain ⟨s, hs⟩ := exists_state (hlt q (List.mem_of_getElem? hi))
  rw [Graph.targets_eq_of_getElem? (getElem?_restrict hlt hi hs), Graph.targets_eq_of_getElem? hs]
  exact Edges.targets_renumber s.edges kept l

theorem renumbered_eq_map {qs : List Nat} (h : ∀ q ∈ qs, q ∈ kept) :
    Edges.renumbered kept qs = qs.map kept.idxOf := by
  rw [Edges.renumbered, List.filter_eq_self.mpr (by simpa using h)]

theorem idxOf_mem_renumbered {qs : List Nat} (hq : q ∈ kept) :
    kept.idxOf q ∈ Edges.renumbered kept qs ↔ q ∈ qs := by
  simp only [Edges.renumbered, List.mem_map, List.mem_filter, decide_eq_true_eq]
  constructor
  · rintro ⟨p, ⟨hp, hkept⟩, heq⟩
    exact Edges.eq_of_idxOf_eq hkept heq ▸ hp
  · intro h
    exact ⟨q, ⟨h, hq⟩, rfl⟩

theorem follow?_restrict (hclosed : m.Closed kept) (hq : q ∈ kept) (l : Label) :
    (m.restrict kept).follow? (kept.idxOf q) l = (m.follow? q l).map kept.idxOf := by
  have htargets (l : Label) : (m.restrict kept).graph.targets (kept.idxOf q) l =
      (m.graph.targets q l).map kept.idxOf := by
    rw [targets_restrict hclosed.lt (List.getElem?_idxOf hq),
      renumbered_eq_map (hclosed.target q hq l)]
  rw [follow?, follow?, htargets, htargets, ← List.map_append, List.head?_map]

/-- Inside the kept states walking is the same up to the numbers of the states. -/
theorem walksFrom_restrict (hclosed : m.Closed kept) (hq : q ∈ kept) :
    (m.restrict kept).walksFrom (kept.idxOf q) w ↔ m.walksFrom q w := by
  induction w generalizing q with
  | nil =>
    rw [walksFrom_nil, walksFrom_nil]
    exact idxOf_mem_renumbered hq
  | cons c w ih =>
    rw [walksFrom_cons, walksFrom_cons, follow?_restrict hclosed hq]
    cases hfollow : m.follow? q (.letter c) with
    | none => simp
    | some r =>
      have hr : r ∈ kept := (mem_targets_of_follow? hfollow).elim (hclosed.target q hq _ r)
        (hclosed.target q hq _ r)
      simp [ih hr]

theorem walks?_restrict (hclosed : m.Closed kept) (hinitial : ∀ q ∈ m.initial, q ∈ kept) :
    (m.restrict kept).walks? w = m.walks? w := by
  have hmap : (m.restrict kept).initial = m.initial.map kept.idxOf := renumbered_eq_map hinitial
  rw [walks?, walks?, hmap, List.head?_map, Option.map_map]
  cases h : m.initial with
  | nil => rfl
  | cons q qs =>
    have hq : q ∈ kept := hinitial q (by simp [h])
    simp [Bool.eq_iff_iff.mpr (walksFrom_restrict (w := w) hclosed hq)]

end Machine

end Acceptor
