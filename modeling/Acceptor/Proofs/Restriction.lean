import Acceptor.Proofs.Accessible
import Acceptor.Proofs.Coverage

/-!
# The accessible part is an automaton again

Restriction to states that no edge leaves renumbers targets and drops none of them. So the demands
of a kind are kept, and a search over pairs of kept states meets the same pairs under other numbers:
a covered machine stays covered.

## Main results

* `Machine.meets_restrict`: the demands are kept.
* `Machine.coverage_restrict`: coverage is kept.
* `Machine.check_restrict`: so the check of every kind is.
* `Machine.accessible?_dfa`: the accessible part of a deterministic automaton is one.

## Implementation notes

Coverage is carried over on pairs of states and not on languages, for the check of an alphabet of
all characters tells more apart than words do.
-/

namespace Acceptor

namespace Machine

variable {m : Machine} {k : Kind} {p q r i : Nat} {l : Label} {w : List Char} {kept : List Nat}
  {starts : List (Nat × Nat)} {x : Nat × Option Nat}

/-! ### The demands -/

theorem size_restrict (hlt : ∀ q ∈ kept, q < m.size) : (m.restrict kept).size = kept.length := by
  have h := congrArg List.length (states_restrict hlt)
  simpa [size, Graph.size] using h

theorem idxOf_lt_size_restrict (hlt : ∀ q ∈ kept, q < m.size) (hq : q ∈ kept) :
    kept.idxOf q < (m.restrict kept).size := by
  rw [size_restrict hlt]
  exact List.idxOf_lt_length_of_mem hq

/-- A state of the restriction has the renumbered targets of a kept state. -/
theorem Closed.targets_restrict (hclosed : m.Closed kept) (hi : i < (m.restrict kept).size) :
    ∃ q ∈ kept, ∀ l, (m.restrict kept).graph.targets i l =
      (m.graph.targets q l).map kept.idxOf := by
  rw [size_restrict hclosed.lt] at hi
  refine ⟨kept[i], List.getElem_mem hi, fun l => ?_⟩
  rw [Machine.targets_restrict hclosed.lt (List.getElem?_eq_getElem hi),
    renumbered_eq_map (hclosed.target _ (List.getElem_mem hi) l)]

theorem initial_restrict (hinitial : ∀ q ∈ m.initial, q ∈ kept) :
    (m.restrict kept).initial = m.initial.map kept.idxOf :=
  renumbered_eq_map hinitial

theorem meets_restrict (hm : m.Meets k) (hclosed : m.Closed kept)
    (hinitial : ∀ q ∈ m.initial, q ∈ kept) : (m.restrict kept).Meets k := by
  have hstart := initial_restrict hinitial
  -- an id that is no state has no targets, every other has those of a kept state
  have hcases (i : Nat) : (∀ l, (m.restrict kept).graph.targets i l = []) ∨
      ∃ q ∈ kept, ∀ l, (m.restrict kept).graph.targets i l =
        (m.graph.targets q l).map kept.idxOf := by
    by_cases hi : i < (m.restrict kept).size
    · exact .inr (hclosed.targets_restrict hi)
    · exact .inl fun l => Graph.targets_eq_nil (Nat.not_lt.mp hi)
  refine ⟨?_, fun hk => ?_, fun i hi => ?_, fun i hi => ?_, fun i l j hj => ?_, fun i c hc => ?_,
    fun hk i => ?_, fun hk i hi c hc => ?_, fun hk i => ?_⟩
  · rw [hstart]
    simpa using hm.initial_ne_nil
  · rw [hstart, List.length_map]
    exact hm.initial_single hk
  · rw [hstart] at hi
    obtain ⟨q, hq, rfl⟩ := List.mem_map.mp hi
    exact idxOf_lt_size_restrict hclosed.lt (hinitial q hq)
  · obtain ⟨q, hq, rfl⟩ := List.mem_map.mp hi
    have hkept : q ∈ kept := by simpa using (List.mem_filter.mp hq).2
    exact idxOf_lt_size_restrict hclosed.lt hkept
  · rcases hcases i with h | ⟨q, hq, h⟩
    · simp [h] at hj
    · rw [h] at hj
      obtain ⟨r, hr, rfl⟩ := List.mem_map.mp hj
      exact idxOf_lt_size_restrict hclosed.lt (hclosed.target q hq l r hr)
  · rcases hcases i with h | ⟨q, -, h⟩
    · exact absurd (h _) hc
    · exact hm.letter_mem q c fun hnil => hc (by rw [h, hnil, List.map_nil])
  · rcases hcases i with h | ⟨q, -, h⟩
    · exact h _
    · rw [h, hm.no_epsilon hk, List.map_nil]
  · obtain ⟨q, hq, h⟩ := hclosed.targets_restrict hi
    obtain ⟨r, hr⟩ := hm.letter_single hk q (hclosed.lt q hq) c hc
    exact ⟨kept.idxOf r, by rw [h, hr, List.map_singleton]⟩
  · rcases hcases i with h | ⟨q, -, h⟩
    · simp [h]
    · rw [h, List.length_map]
      exact hm.any_single hk q

/-! ### Coverage -/

theorem eq_singleton_of_map_idxOf {qs : List Nat} (h : qs.map kept.idxOf = [i]) :
    ∃ q, qs = [q] ∧ i = kept.idxOf q := by
  obtain ⟨q, rfl, hq⟩ := List.map_eq_singleton_iff.mp h
  exact ⟨q, rfl, hq.symm⟩

/-- The pairs that the check of the restriction compares are pairs of kept states, which the check
of the machine compares. -/
theorem mem_rivalPairs_restrict (hm : m.Meets .dfa) (hclosed : m.Closed kept)
    (hinitial : ∀ q ∈ m.initial, q ∈ kept) {j : Nat}
    (h : (i, j) ∈ (m.restrict kept).rivalPairs) :
    ∃ p ∈ kept, ∃ q ∈ kept, (p, q) ∈ m.rivalPairs ∧ i = kept.idxOf p ∧ j = kept.idxOf q := by
  obtain ⟨s, hs, c, hc⟩ := mem_rivalPairs.mp h
  obtain ⟨n, hn⟩ := Array.getElem?_of_mem hs
  obtain ⟨hi, hj, hne⟩ := (mem_rivals_iff (meets_restrict hm hclosed hinitial) hn).mp hc
  obtain ⟨a, ha, htargets⟩ := hclosed.targets_restrict (Array.getElem?_eq_some_iff.mp hn).1
  rw [htargets] at hi hj
  obtain ⟨p, hp, rfl⟩ := eq_singleton_of_map_idxOf hi
  obtain ⟨q, hq, rfl⟩ := eq_singleton_of_map_idxOf hj
  obtain ⟨t, ht⟩ := exists_state (hclosed.lt a ha)
  have hrivals := (mem_rivals_iff hm ht).mpr ⟨hp, hq, fun heq => hne (by rw [heq])⟩
  have hpkept : p ∈ kept := hclosed.target a ha .any p (by simp [hp])
  have hqkept : q ∈ kept := hclosed.target a ha (.letter c) q (by simp [hq])
  exact ⟨p, hpkept, q, hqkept, mem_rivalPairs.mpr ⟨t, Array.mem_of_getElem? ht, c, hrivals⟩, rfl,
    rfl⟩

/-- The invariant of the search in the restriction: a pair that it comes to is a pair of kept
states, which the search in the machine comes to. -/
theorem pairReached_restrict (hclosed : m.Closed kept) {starts' : List (Nat × Nat)}
    (hstarts : ∀ s ∈ starts', ∃ p ∈ kept, ∃ q ∈ kept, (p, q) ∈ starts ∧
      s = (kept.idxOf p, kept.idxOf q))
    (h : (m.restrict kept).PairReached starts' x) :
    ∃ a b, m.PairReached starts (a, b) ∧ a ∈ kept ∧ (∀ r ∈ b, r ∈ kept) ∧
      x.1 = kept.idxOf a ∧ x.2 = b.map kept.idxOf := by
  have hkept {q r : Nat} {l : Label} (hq : q ∈ kept) (hr : m.follow? q l = some r) : r ∈ kept :=
    (mem_targets_of_follow? hr).elim (hclosed.target q hq _ r) (hclosed.target q hq _ r)
  refine PairReached.induct (P := fun i j => ∃ a b, m.PairReached starts (a, b) ∧ a ∈ kept ∧
    (∀ r ∈ b, r ∈ kept) ∧ i = kept.idxOf a ∧ j = b.map kept.idxOf) ?_ ?_ h
  · intro s hs
    obtain ⟨p, hp, q, hq, hpq, rfl⟩ := hstarts s hs
    exact ⟨p, some q, .start hpq, hp, by simpa using hq, rfl, rfl⟩
  · rintro _ _ l i ⟨a, b, hreached, ha, hb, rfl, rfl⟩ hl hi
    rw [follow?_restrict hclosed ha] at hi
    obtain ⟨r, hr, rfl⟩ := Option.map_eq_some_iff.mp hi
    refine ⟨r, b.bind (m.follow? · l), hreached.step hl hr rfl, hkept ha hr, fun q hq => ?_, rfl,
      ?_⟩
    · obtain ⟨b, rfl, hq⟩ := Option.bind_eq_some_iff.mp hq
      exact hkept (hb b rfl) hq
    · cases b with
      | none => rfl
      | some b => exact follow?_restrict hclosed (hb b rfl) l

theorem coverage_restrict (hm : m.Meets .dfa) (hclosed : m.Closed kept)
    (hinitial : ∀ q ∈ m.initial, q ∈ kept) (h : m.coverage = .ok ()) :
    (m.restrict kept).coverage = .ok () := by
  have hconfined := (meets_restrict hm hclosed hinitial).confined
  rw [coverage_eq_ok hm.confined,
    allIncluded_iff hm.confined (statePairs_rivalPairs hm.confined)] at h
  rw [coverage_eq_ok hconfined, allIncluded_iff hconfined (statePairs_rivalPairs hconfined)]
  intro x hx hfinal
  obtain ⟨a, b, hreached, ha, hb, hxa, hxb⟩ := pairReached_restrict hclosed (fun s hs => by
    obtain ⟨p, hp, q, hq, hpq, hi, hj⟩ := mem_rivalPairs_restrict hm hclosed hinitial hs
    exact ⟨p, hp, q, hq, hpq, Prod.ext hi hj⟩) hx
  rw [hxa] at hfinal
  obtain ⟨q, hq, hqf⟩ := h _ hreached ((idxOf_mem_renumbered ha).mp hfinal)
  refine ⟨kept.idxOf q, ?_, (idxOf_mem_renumbered (hb q hq)).mpr hqf⟩
  rw [hxb]
  exact Option.mem_map_of_mem _ hq

/-! ### The accessible part -/

theorem check_restrict (h : m.check k = .ok ()) (hclosed : m.Closed kept)
    (hinitial : ∀ q ∈ m.initial, q ∈ kept) : (m.restrict kept).check k = .ok () := by
  by_cases hk : k = .dfa
  · subst hk
    obtain ⟨hm, hcoverage⟩ := Automaton.check_dfa_eq_ok.mp h
    exact Automaton.check_dfa_eq_ok.mpr ⟨meets_restrict hm hclosed hinitial,
      coverage_restrict hm hclosed hinitial hcoverage⟩
  · have hm := (Automaton.check_eq_ok hk).mp h
    exact (Automaton.check_eq_ok hk).mpr (meets_restrict hm hclosed hinitial)

/-- **The accessible part of a deterministic automaton is one.** Walks from its initial state accept
the same words. -/
theorem accessible?_dfa (h : m.check .dfa = .ok ()) :
    ∃ n, m.accessible? = some n ∧ n.check .dfa = .ok () ∧ ∀ w, n.walks? w = m.walks? w := by
  have hm := (Automaton.check_dfa_eq_ok.mp h).1
  obtain ⟨kept, hkept, -, hmem⟩ := accessible?_eq_some hm
  have hclosed := closed_of_accessible hm hmem
  have hinitial : ∀ q ∈ m.initial, q ∈ kept := fun q hq => (hmem q).mpr (.initial hq)
  exact ⟨_, hkept, check_restrict h hclosed hinitial, fun w => walks?_restrict hclosed hinitial⟩

end Machine

end Acceptor
