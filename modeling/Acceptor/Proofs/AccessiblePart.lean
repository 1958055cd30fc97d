import Acceptor.Machine.Part
import Acceptor.Proofs.Conversions

/-!
# The accessible part is a part of the machine

Taking the accessible part renumbers states and drops edges to states that are not kept. Since no
edge leads out of the accessible states, no edge is dropped, and the result is the machine on these
states. The rest follows from this alone. Numbers can be read back, so runs of the machine from a
kept state and runs of the part are the same up to the numbers. Hence every state of a part on
accessible states is accessible, and a machine all of whose states are is its own part.

## Main results

* `Machine.partOn_restrict`: restriction to states that no edge leaves gives a part.
* `Machine.PartOn.run`, `Machine.PartOn.run_back`, `Machine.PartOn.reads_iff`: runs of a part.
* `Machine.accessible?_eq_self`: nothing is left out if all states are accessible.
* `Automaton.accessible?_exact`: what taking the accessible part does.
-/

namespace Acceptor

/-! ### Numbers -/

/-- In a list without repeats an item has one place. -/
theorem place_unique {α : Type} {xs : List α} {x : α} {i j : Nat} (hn : xs.Nodup)
    (hi : xs[i]? = some x) (hj : xs[j]? = some x) : i = j :=
  (List.getElem?_inj (List.getElem?_eq_some_iff.mp hi).1 hn).mp (hi.trans hj.symm)

section Numbered

variable {kept old new : List Nat} {q i : Nat}

theorem numbered_map_idxOf (h : ∀ q ∈ old, q ∈ kept) :
    Numbered kept old (old.map kept.idxOf) := by
  rw [Numbered, List.forall₂_map_right_iff, List.forall₂_same]
  exact fun q hq => List.getElem?_idxOf (h q hq)

theorem Numbered.exists_new (h : Numbered kept old new) (hq : q ∈ old) :
    ∃ i ∈ new, kept[i]? = some q := by
  obtain ⟨n, hn, rfl⟩ := List.getElem_of_mem hq
  have hn' : n < new.length := h.length_eq ▸ hn
  exact ⟨_, List.getElem_mem hn', (List.forall₂_iff_get.mp h).2 n hn hn'⟩

theorem Numbered.exists_old (h : Numbered kept old new) (hi : i ∈ new) :
    ∃ q ∈ old, kept[i]? = some q := by
  obtain ⟨n, hn, rfl⟩ := List.getElem_of_mem hi
  have hn' : n < old.length := h.length_eq ▸ hn
  exact ⟨_, List.getElem_mem hn', (List.forall₂_iff_get.mp h).2 n hn' hn⟩

/-- The numbers are the ids themselves if every state is kept. -/
theorem Numbered.eq_of_range {n : Nat} (h : Numbered (List.range n) old new) : new = old := by
  have heq : List.Forall₂ Eq old new := by
    refine h.imp fun q i hi => ?_
    obtain ⟨-, rfl⟩ := List.getElem?_eq_some_iff.mp hi
    simp
  rw [List.forall₂_eq_eq_eq] at heq
  exact heq.symm

end Numbered

namespace Edges

variable {e f : Edges} {kept : List Nat} {l : Label}

theorem eq_of_groups (h : e.groups = f.groups) : e = f := by
  cases e
  cases f
  cases h
  rfl

/-- No edge is dropped if all targets are kept. -/
theorem groups_renumber (h : ∀ l, ∀ q ∈ e.targets l, q ∈ kept) :
    (e.renumber kept).groups = e.groups.map fun g => (g.1, g.2.map kept.idxOf) := by
  have hkept : ∀ g ∈ e.groups, renumbered kept g.2 = g.2.map kept.idxOf := fun g hg => by
    rw [renumbered, List.filter_eq_self.mpr]
    exact fun q hq => by simpa using h g.1 q (by rwa [targets_of_mem hg])
  show (e.groups.map fun g => (g.1, renumbered kept g.2)).filter (fun g => !g.2.isEmpty) = _
  rw [List.map_congr_left fun g hg => by rw [hkept g hg], List.filter_eq_self]
  rintro _ hmem
  obtain ⟨g, hg, rfl⟩ := List.mem_map.mp hmem
  simpa using e.targets_ne_nil g hg

end Edges

theorem State.NumberedAs.eq_of_range {s t : State} {size : Nat}
    (h : s.NumberedAs (List.range size) t) : t = s := by
  have hedges : t.edges = s.edges := by
    have heq : List.Forall₂ Eq s.edges.groups t.edges.groups :=
      h.groups.imp fun g g' hg => Prod.ext hg.1.symm hg.2.eq_of_range.symm
    rw [List.forall₂_eq_eq_eq] at heq
    exact Edges.eq_of_groups heq.symm
  have hname := h.name
  cases s
  cases t
  cases hname
  cases hedges
  rfl

namespace Machine

variable {m n : Machine} {k : Kind} {p q i j : Nat} {l : Label} {w : List Char} {kept : List Nat}

/-! ### Restriction gives a part -/

theorem partOn_restrict (hclosed : m.Closed kept) (hsorted : kept.Pairwise (· < ·))
    (hinitial : ∀ q ∈ m.initial, q ∈ kept) : m.PartOn kept (m.restrict kept) where
  sorted := hsorted
  size := size_restrict hclosed.lt
  state i q hi := by
    have hq : q ∈ kept := List.mem_of_getElem? hi
    obtain ⟨s, hs⟩ := exists_state (hclosed.lt q hq)
    refine ⟨s, _, hs, getElem?_restrict hclosed.lt hi hs, rfl, ?_⟩
    have htargets (l : Label) : ∀ r ∈ s.edges.targets l, r ∈ kept := fun r hr =>
      hclosed.target q hq l r (by rwa [Graph.targets_eq_of_getElem? hs])
    rw [Edges.groups_renumber htargets, List.forall₂_map_right_iff, List.forall₂_same]
    refine fun g hg => ⟨rfl, numbered_map_idxOf fun r hr => htargets g.1 r ?_⟩
    rwa [Edges.targets_of_mem hg]
  initial := by
    rw [initial_restrict hinitial]
    exact numbered_map_idxOf hinitial
  finals := numbered_map_idxOf fun q hq => by simpa using (List.mem_filter.mp hq).2
  alphabet := rfl

/-! ### Runs of a part -/

theorem numbered_targetsIn {gs hs : List (Label × List Nat)}
    (h : List.Forall₂ (fun g h => h.1 = g.1 ∧ Numbered kept g.2 h.2) gs hs) (l : Label) :
    Numbered kept (Edges.targetsIn l gs) (Edges.targetsIn l hs) := by
  induction h with
  | nil => exact .nil
  | cons hg _ ih =>
    obtain ⟨hlabel, hnumbers⟩ := hg
    rw [Edges.targetsIn, Edges.targetsIn, hlabel]
    split
    · exact hnumbers
    · exact ih

theorem PartOn.targets (h : m.PartOn kept n) (hi : kept[i]? = some q) (l : Label) :
    Numbered kept (m.graph.targets q l) (n.graph.targets i l) := by
  obtain ⟨s, t, hs, ht, hst⟩ := h.state i q hi
  rw [Graph.targets_eq_of_getElem? hs, Graph.targets_eq_of_getElem? ht]
  exact numbered_targetsIn hst.groups l

theorem PartOn.nodup (h : m.PartOn kept n) : kept.Nodup := h.sorted.imp Nat.ne_of_lt

theorem PartOn.mem_finals_iff (h : m.PartOn kept n) (hi : kept[i]? = some q) :
    i ∈ n.finals ↔ q ∈ m.finals := by
  constructor
  · intro hfinal
    obtain ⟨r, hr, hi'⟩ := h.finals.exists_old hfinal
    obtain rfl := Option.some.inj (hi.symm.trans hi')
    exact (List.mem_filter.mp hr).1
  · intro hfinal
    have hkept : q ∈ m.finals.filter (· ∈ kept) :=
      List.mem_filter.mpr ⟨hfinal, by simpa using List.mem_of_getElem? hi⟩
    obtain ⟨j, hj, hq⟩ := h.finals.exists_new hkept
    obtain rfl := place_unique h.nodup hi hq
    exact hj

theorem PartOn.run (h : m.PartOn kept n) (hrun : m.Run p w q) (hi : kept[i]? = some p) :
    ∃ j, kept[j]? = some q ∧ n.Run i w j := by
  induction hrun generalizing i with
  | stay q => exact ⟨i, hi, .stay i⟩
  | read hq hc _ ih =>
    obtain ⟨a, ha, hkept⟩ := (h.targets hi _).exists_new hq
    obtain ⟨j, hj, hrun⟩ := ih hkept
    exact ⟨j, hj, .read ha hc hrun⟩
  | skip hq _ ih =>
    obtain ⟨a, ha, hkept⟩ := (h.targets hi _).exists_new hq
    obtain ⟨j, hj, hrun⟩ := ih hkept
    exact ⟨j, hj, .skip ha hrun⟩

theorem PartOn.run_back (h : m.PartOn kept n) (hrun : n.Run i w j) (hi : kept[i]? = some p) :
    ∃ q, kept[j]? = some q ∧ m.Run p w q := by
  induction hrun generalizing p with
  | stay i => exact ⟨p, hi, .stay p⟩
  | read hj hc _ ih =>
    obtain ⟨r, hr, hkept⟩ := (h.targets hi _).exists_old hj
    obtain ⟨q, hq, hrun⟩ := ih hkept
    exact ⟨q, hq, .read hr hc hrun⟩
  | skip hj _ ih =>
    obtain ⟨r, hr, hkept⟩ := (h.targets hi _).exists_old hj
    obtain ⟨q, hq, hrun⟩ := ih hkept
    exact ⟨q, hq, .skip hr hrun⟩

/-- A part has the language of the machine. -/
theorem PartOn.reads_iff (h : m.PartOn kept n) : n.Reads w ↔ m.Reads w := by
  constructor
  · rintro ⟨i, hi, j, hj, hrun⟩
    obtain ⟨p, hp, hkept⟩ := h.initial.exists_old hi
    obtain ⟨q, hq, hrun⟩ := h.run_back hrun hkept
    exact ⟨p, hp, q, (h.mem_finals_iff hq).mp hj, hrun⟩
  · rintro ⟨p, hp, q, hq, hrun⟩
    obtain ⟨i, hi, hkept⟩ := h.initial.exists_new hp
    obtain ⟨j, hj, hrun⟩ := h.run hrun hkept
    exact ⟨i, hi, j, (h.mem_finals_iff hj).mpr hq, hrun⟩

/-! ### Accessible states of a part -/

/-- If states stand for the items of a list, one for each, they are accessible if every item has an
accessible state. -/
theorem forall_accessible {α : Type} {xs : List α} (hn : xs.Nodup) (hsize : n.size = xs.length)
    (h : ∀ x ∈ xs, ∃ i, xs[i]? = some x ∧ n.Accessible i) : ∀ i < n.size, n.Accessible i := by
  intro i hi
  rw [hsize] at hi
  obtain ⟨j, hj, haccessible⟩ := h _ (List.getElem_mem hi)
  obtain rfl := place_unique hn (List.getElem?_eq_getElem hi) hj
  exact haccessible

theorem PartOn.exists_accessible (h : m.PartOn kept n) (hq : m.Accessible q) :
    ∃ i, kept[i]? = some q ∧ n.Accessible i := by
  induction hq with
  | initial hq =>
    obtain ⟨i, hi, hkept⟩ := h.initial.exists_new hq
    exact ⟨i, hkept, .initial hi⟩
  | step _ hq ih =>
    obtain ⟨i, hi, haccessible⟩ := ih
    obtain ⟨j, hj, hkept⟩ := (h.targets hi _).exists_new hq
    exact ⟨j, hkept, haccessible.step hj⟩

theorem PartOn.accessible (h : m.PartOn kept n) (haccessible : ∀ q ∈ kept, m.Accessible q) :
    ∀ i < n.size, n.Accessible i :=
  forall_accessible h.nodup h.size fun q hq => h.exists_accessible (haccessible q hq)

/-- The part on all states is the machine. -/
theorem PartOn.eq_of_range (h : m.PartOn (List.range m.size) n)
    (hfinals : ∀ q ∈ m.finals, q < m.size) : n = m := by
  have hsize : n.size = m.size := by simpa using h.size
  have hstates : n.graph.states = m.graph.states := by
    refine Array.ext_getElem? fun i => ?_
    by_cases hi : i < m.size
    · obtain ⟨s, t, hs, ht, hst⟩ := h.state i i (List.getElem?_range hi)
      rw [hs, ht, hst.eq_of_range]
    · have hle : n.size ≤ i := hsize ▸ Nat.not_lt.mp hi
      rw [Array.getElem?_eq_none hle, Array.getElem?_eq_none (Nat.not_lt.mp hi)]
  have hkept : m.finals.filter (· ∈ List.range m.size) = m.finals :=
    List.filter_eq_self.mpr (by simpa using hfinals)
  have hfinals' := (hkept ▸ h.finals).eq_of_range
  have hinitial := h.initial.eq_of_range
  have halphabet := h.alphabet
  obtain ⟨⟨_⟩, _, _, _⟩ := m
  obtain ⟨⟨_⟩, _, _, _⟩ := n
  simp_all

/-- Nothing is left out if all states are accessible. -/
theorem accessible?_eq_self (hm : m.Meets k) (h : ∀ q < m.size, m.Accessible q) :
    m.accessible? = some m := by
  obtain ⟨kept, hkept, hsorted, hmem⟩ := accessible?_eq_some hm
  have hclosed := closed_of_accessible hm hmem
  have hpart := partOn_restrict hclosed hsorted fun q hq => (hmem q).mpr (.initial hq)
  -- the accessible states are all states, and in increasing order they are the ids themselves
  obtain rfl : kept = List.range m.size := by
    refine Sorted.eq_of_mem_iff (fun _ _ => Nat.lt_asymm) hsorted List.pairwise_lt_range fun q => ?_
    rw [List.mem_range]
    exact ⟨hclosed.lt q, fun hq => (hmem q).mpr (h q hq)⟩
  rw [hkept, hpart.eq_of_range hm.final_lt]

end Machine

namespace Automaton

open Machine

variable {a b : Automaton} {m : Machine} {k : Kind}

/-- **The accessible part is exact.** A machine that meets the demands of a kind has an accessible
part: the machine on its accessible states, numbered in their old order. All states of the part are
accessible, it meets the demands of the kind, and it is its own accessible part. If the machine
makes an automaton without empty moves, so does the part, and both accept the same words. -/
theorem accessible?_exact (h : m.validate k = .ok ()) :
    ∃ n kept, m.accessible? = some n ∧ m.PartOn kept n ∧ (∀ q, q ∈ kept ↔ m.Accessible q) ∧
      (∀ i < n.size, n.Accessible i) ∧ n.validate k = .ok () ∧ n.accessible? = some n ∧
      ∀ k' a, k' ≠ .enfa → ofMachine k' m = .ok a → ∃ b, ofMachine k' n = .ok b ∧
        ∀ w, ∃ x, a.accepts? w = some x ∧ b.accepts? w = some x := by
  have hm := validate_eq_ok_iff.mp h
  obtain ⟨kept, hkept, hsorted, hmem⟩ := accessible?_eq_some hm
  have hclosed := closed_of_accessible hm hmem
  have hinitial : ∀ q ∈ m.initial, q ∈ kept := fun q hq => (hmem q).mpr (.initial hq)
  have hpart := partOn_restrict hclosed hsorted hinitial
  have hmeets := meets_restrict hm hclosed hinitial
  have haccessible := hpart.accessible fun q hq => (hmem q).mp hq
  refine ⟨m.restrict kept, kept, hkept, hpart, hmem, haccessible, validate_eq_ok_iff.mpr hmeets,
    accessible?_eq_self hmeets haccessible, fun k' a hk' ha => ?_⟩
  obtain ⟨hcheck, rfl⟩ := ofMachine_eq_ok.mp ha
  have hcheck' := check_restrict hcheck hclosed hinitial
  have hvalid : Valid ⟨k', m⟩ := hcheck
  have hvalid' : Valid ⟨k', m.restrict kept⟩ := hcheck'
  have hkeeps : Keeps ⟨k', m⟩ ⟨k', m.restrict kept⟩ :=
    ⟨hvalid', fun w => hpart.reads_iff, fun _ => hvalid'.exact hk'⟩
  exact ⟨_, ofMachine_eq_ok.mpr ⟨hcheck', rfl⟩, hkeeps.accepts?_eq hvalid (hvalid.exact hk')⟩

/-- Three states with the letter `a`, which leads from each to the last. With any other character
the last stays, as the one between does, to which nothing else leads. Both are final. -/
def bypassed : Machine where
  graph := ⟨#[⟨"p", .ofList [(.letter 'a', 2)]⟩, ⟨"q", .ofList [(.letter 'a', 2), (.any, 1)]⟩,
    ⟨"r", .ofList [(.any, 2), (.letter 'a', 2)]⟩]⟩
  initial := [0]
  finals := [2, 1, 2]
  alphabet := .ofList ['a']

theorem accessible?_exact_bypassed :
    bypassed.validate .dfa = .ok () ∧ ofMachine .dfa bypassed = .ok ⟨.dfa, bypassed⟩ ∧
    ∃ n kept, bypassed.accessible? = some n ∧ bypassed.PartOn kept n ∧
      (∀ q, q ∈ kept ↔ bypassed.Accessible q) ∧ (∀ i < n.size, n.Accessible i) ∧
      n.validate .dfa = .ok () ∧ n.accessible? = some n ∧
      ∃ b, ofMachine .dfa n = .ok b ∧
        ∀ w, ∃ x, accepts? ⟨.dfa, bypassed⟩ w = some x ∧ b.accepts? w = some x := by
  have h : bypassed.validate .dfa = .ok () := by decide +kernel
  have hmade : ofMachine .dfa bypassed = .ok ⟨.dfa, bypassed⟩ := by decide +kernel
  obtain ⟨n, kept, hn, hpart, hmem, haccessible, hvalid, hself, hanswers⟩ := accessible?_exact h
  exact ⟨h, hmade, n, kept, hn, hpart, hmem, haccessible, hvalid, hself,
    hanswers .dfa _ (by simp) hmade⟩

end Automaton

end Acceptor
