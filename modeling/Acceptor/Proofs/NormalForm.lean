import Acceptor.Machine.Normal
import Acceptor.Proofs.AccessiblePart
import Acceptor.Proofs.SameEdges

/-!
# Elimination gives the normal form

Elimination lists what it finds in the order of the normal form, and this form is unique: besides
names and final ids, which elimination passes on, a machine in normal form is determined by its
edges and initial ids. It has no empty moves, so elimination finds the edges that are there.
Therefore the machines in normal form are those that elimination leaves as they are, and eliminating
twice is eliminating once.

Which labels are read depends on the edges: the wildcard is among them only if some edge carries it.
So it has to be shown that elimination neither adds the first wildcard nor loses the last one.

## Main results

* `Machine.Normal.eq_of_sameEdges`: the normal form is unique.
* `Machine.normal_of_eliminate?`: elimination gives the normal form.
* `Machine.sameEdges_of_eliminate?`: it keeps the edges of a machine without empty moves.
* `Machine.eliminate?_eq_self_iff`: it changes nothing exactly for machines in this form.
* `Automaton.convert_nfa_normal`: the conversion, once and twice.
-/

namespace Acceptor

namespace Edges

variable {e f : Edges} {ls : List Label} {gs : List (Label × IdSet)}

theorem labels_eq_filter (hn : ls.Nodup) (h : e.labels.Sublist ls) :
    e.labels = ls.filter fun l => e.targets l ≠ [] := by
  have hsub : e.labels.Sublist (ls.filter fun l => e.targets l ≠ []) := by
    have hself : e.labels.filter (fun l => e.targets l ≠ []) = e.labels :=
      List.filter_eq_self.mpr fun l hl => decide_eq_true (mem_labels.mp hl)
    exact hself ▸ h.filter _
  have hback : (ls.filter fun l => e.targets l ≠ []) ⊆ e.labels := fun l hl =>
    mem_labels.mpr (of_decide_eq_true (List.mem_filter.mp hl).2)
  exact hsub.eq_of_length_le ((hn.filter _).subperm hback).length_le

/-- Edges are determined by their targets if labels are listed in a given order. -/
theorem eq_of_targets (hn : ls.Nodup) (he : e.labels.Sublist ls) (hf : f.labels.Sublist ls)
    (h : ∀ l, e.targets l = f.targets l) : e = f := by
  have htargets : e.targets = f.targets := funext h
  refine eq_of_groups ?_
  rw [groups_eq_map, groups_eq_map, labels_eq_filter hn he, labels_eq_filter hn hf, htargets]

theorem labels_ofSets_sublist {hn : (gs.map Prod.fst).Nodup} (h : gs.map Prod.fst = ls) :
    (ofSets gs hn).labels.Sublist ls := by
  have hsub : (ofSets gs hn).labels.Sublist ((gs.map fun g => (g.1, g.2.toList)).map Prod.fst) :=
    List.filter_sublist.map Prod.fst
  rw [← h]
  simpa [Function.comp_def] using hsub

end Edges

namespace Machine

variable {m n : Machine} {k : Kind} {p q r : Nat} {l : Label}

/-! ### The normal form is unique -/

theorem Normal.mem_readLabels (h : m.Normal) (hr : r ∈ m.graph.targets q l) :
    l ∈ m.readLabels := by
  obtain ⟨s, hs, hr⟩ := Graph.mem_targets.mp hr
  have hl : l ∈ s.edges.labels := Edges.mem_labels.mpr (List.ne_nil_of_mem hr)
  exact (h.labels_sublist s (Array.mem_of_getElem? hs)).mem hl

theorem Normal.no_epsilon (h : m.Normal) (q : Nat) : m.graph.targets q .epsilon = [] :=
  List.eq_nil_iff_forall_not_mem.mpr fun _ hr => epsilon_not_mem_readLabels (h.mem_readLabels hr)

theorem Normal.targets_eq (hm : m.Normal) (hn : n.Normal) (h : m.SameEdges n) (q : Nat)
    (l : Label) : n.graph.targets q l = m.graph.targets q l :=
  Sorted.eq_of_mem_iff (fun _ _ => Nat.lt_asymm) (hn.targets_sorted q l) (hm.targets_sorted q l)
    (h.targets q l)

theorem Normal.states_eq (hm : m.Normal) (hn : n.Normal) (h : m.SameEdges n)
    (hnames : n.graph.states.map State.name = m.graph.states.map State.name) :
    n.graph.states = m.graph.states := by
  refine Array.ext h.size fun q hq hq' => ?_
  have hs : n.graph.states[q]? = some n.graph.states[q] := Array.getElem?_eq_getElem hq
  have hs' : m.graph.states[q]? = some m.graph.states[q] := Array.getElem?_eq_getElem hq'
  have hname : n.graph.states[q].name = m.graph.states[q].name := by
    have hq := congrArg (·[q]?) hnames
    simpa [hs, hs'] using hq
  have hedges : n.graph.states[q].edges = m.graph.states[q].edges := by
    refine Edges.eq_of_targets m.readLabels_nodup ?_
      (hm.labels_sublist _ (Array.getElem_mem hq')) fun l => ?_
    · rw [← h.readLabels]
      exact hn.labels_sublist _ (Array.getElem_mem hq)
    · rw [← Graph.targets_eq_of_getElem? hs, ← Graph.targets_eq_of_getElem? hs',
        hm.targets_eq hn h]
  exact State.mk.injEq .. ▸ ⟨hname, hedges⟩

/-- Machines in normal form are the same if they have the same edges, names and final ids. -/
theorem Normal.eq_of_sameEdges (hm : m.Normal) (hn : n.Normal) (h : m.SameEdges n)
    (hnames : n.graph.states.map State.name = m.graph.states.map State.name)
    (hfinals : n.finals = m.finals) : n = m := by
  have hgraph : n.graph = m.graph := congrArg Graph.mk (hm.states_eq hn h hnames)
  have hinitial : n.initial = m.initial :=
    Sorted.eq_of_mem_iff (fun _ _ => Nat.lt_asymm) hn.initial_sorted hm.initial_sorted h.initial
  exact Machine.mk.injEq .. ▸ ⟨hgraph, hinitial, hfinals, h.alphabet⟩

/-! ### Elimination -/

theorem names_of_eliminate? (h : m.eliminate? = some n) :
    n.graph.states.map State.name = m.graph.states.map State.name := by
  obtain ⟨-, hstates, -⟩ := eliminate?_eq_some h
  refine Array.ext_getElem? fun q => ?_
  rw [Array.getElem?_map, Array.getElem?_map, hstates, Array.getElem?_mapIdx, Option.map_map]
  rfl

/-- Elimination keeps wildcards where they are, so the labels that are read stay the same. -/
theorem readLabels_of_eliminate? (h : m.eliminate? = some n) : n.readLabels = m.readLabels := by
  obtain ⟨-, -, -, -, halphabet⟩ := eliminate?_eq_some h
  refine readLabels_congr halphabet ?_
  constructor
  · intro hn
    obtain ⟨q, r, hr⟩ := hasWildcard_iff.mp hn
    exact any_mem_readLabels.mp ((mem_targets_of_eliminate? h).mp hr).1
  · intro hm
    obtain ⟨q, r, hr⟩ := hasWildcard_iff.mp hm
    exact hasWildcard_iff.mpr ⟨q, r, (mem_targets_of_eliminate? h).mpr
      ⟨any_mem_readLabels.mpr hm, q, r, .refl q, hr, .refl r⟩⟩

theorem targets_closedEdges_sorted {closures : Array IdSet} :
    ((m.closedEdges closures q).targets l).Pairwise (· < ·) := by
  by_cases hl : l ∈ m.readLabels
  · rw [targets_closedEdges hl]
    exact IdSet.toList_sorted _
  · rw [targets_closedEdges_eq_nil hl]
    exact .nil

theorem labels_closedEdges_sublist {closures : Array IdSet} :
    (m.closedEdges closures q).labels.Sublist m.readLabels := by
  rw [closedEdges]
  exact Edges.labels_ofSets_sublist (by simp [Function.comp_def])

/-- **Elimination gives the normal form.** -/
theorem normal_of_eliminate? (h : m.eliminate? = some n) : n.Normal := by
  obtain ⟨-, hstates, hinitial, -⟩ := eliminate?_eq_some h
  have hedges : ∀ {q s}, n.graph.states[q]? = some s →
      s.edges = m.closedEdges m.graph.closures q := by
    intro q s hs
    rw [hstates, Array.getElem?_mapIdx] at hs
    obtain ⟨t, -, rfl⟩ := Option.map_eq_some_iff.mp hs
    rfl
  refine ⟨hinitial ▸ IdSet.toList_sorted _, fun q l => ?_, fun s hs => ?_⟩
  · cases hs : n.graph.states[q]? with
    | none => simp [Graph.targets, Graph.targets?, Graph.edges?, hs]
    | some s =>
      rw [Graph.targets_eq_of_getElem? hs, hedges hs]
      exact targets_closedEdges_sorted
  · obtain ⟨q, hs⟩ := Array.getElem?_of_mem hs
    rw [hedges hs, readLabels_of_eliminate? h]
    exact labels_closedEdges_sublist

/-- Elimination keeps the edges of a machine all of whose labels are read: such a machine has no
empty moves. -/
theorem sameEdges_of_eliminate? (hread : ∀ q l r, r ∈ m.graph.targets q l → l ∈ m.readLabels)
    (h : m.eliminate? = some n) : m.SameEdges n := by
  obtain ⟨-, -, -, hfinals, halphabet⟩ := eliminate?_eq_some h
  have hpath {p q : Nat} : m.graph.EpsilonPath p q ↔ p = q := by
    refine ⟨fun hpath => hpath.eq_of_targets ?_, fun hpq => hpq ▸ .refl p⟩
    exact List.eq_nil_iff_forall_not_mem.mpr fun r hr =>
      epsilon_not_mem_readLabels (hread p .epsilon r hr)
  refine ⟨size_of_eliminate? h, fun q => ?_, fun q => by rw [hfinals], fun q l r => ?_, halphabet⟩
  · simp [mem_initial_of_eliminate? h, hpath]
  · rw [mem_targets_of_eliminate? h]
    simp only [hpath]
    constructor
    · rintro ⟨-, p, p', rfl, hp', rfl⟩
      exact hp'
    · exact fun hr => ⟨hread q l r hr, q, r, rfl, hr, rfl⟩

/-- The machines in normal form are those that elimination leaves as they are. -/
theorem eliminate?_eq_self_iff (hm : m.Meets k) : m.eliminate? = some m ↔ m.Normal := by
  refine ⟨normal_of_eliminate?, fun hnormal => ?_⟩
  obtain ⟨n, hn⟩ := Option.isSome_iff_exists.mp (eliminate?_isSome hm)
  obtain ⟨-, -, -, hfinals, -⟩ := eliminate?_eq_some hn
  rw [hn, hnormal.eq_of_sameEdges (normal_of_eliminate? hn)
    (sameEdges_of_eliminate? (fun _ _ _ => hnormal.mem_readLabels) hn)
    (names_of_eliminate? hn) hfinals]

end Machine

namespace Automaton

open Machine

variable {m : Machine} {a : Automaton}

/-- **Conversion eliminates empty moves once and for all.** Every automaton with empty moves
converts to one without them, which is in normal form and has the same names of states in the same
order, the same final ids and the same alphabet. Taken as one with empty moves and converted again,
this stays exactly as it is, the order of labels and targets included. -/
theorem convert_nfa_normal (ha : ofMachine .enfa m = .ok a) :
    ∃ b c, a.convert .nfa = .ok b ∧
      (∀ q, b.machine.graph.targets q .epsilon = []) ∧ b.machine.Normal ∧
      b.machine.graph.states.map State.name = m.graph.states.map State.name ∧
      b.machine.finals = m.finals ∧ b.machine.alphabet = m.alphabet ∧
      b.convert .enfa = .ok c ∧ c.convert .nfa = .ok b := by
  obtain ⟨hm, rfl⟩ := (ofMachine_eq_ok_iff_meets (by simp)).mp ha
  obtain ⟨n, hn, helim, hmeets⟩ := eliminated_eq_ok hm
  obtain ⟨-, -, -, hfinals, halphabet⟩ := eliminate?_eq_some helim
  have hnormal := normal_of_eliminate? helim
  have hagain : eliminated n = .ok n := by
    obtain ⟨n', hn', helim', -⟩ := eliminated_eq_ok hmeets
    obtain rfl := Option.some.inj (helim'.symm.trans ((eliminate?_eq_self_iff hmeets).mpr hnormal))
    exact hn'
  exact ⟨⟨.nfa, n⟩, ⟨.enfa, n⟩, convert_enfa_nfa hn, hnormal.no_epsilon, hnormal,
    names_of_eliminate? helim, hfinals, halphabet, rfl, convert_enfa_nfa hagain⟩

theorem convert_nfa_normal_circling :
    ofMachine .enfa circling = .ok ⟨.enfa, circling⟩ ∧
    ∃ b c, convert ⟨.enfa, circling⟩ .nfa = .ok b ∧
      (∀ q, b.machine.graph.targets q .epsilon = []) ∧ b.machine.Normal ∧
      b.machine.graph.states.map State.name = circling.graph.states.map State.name ∧
      b.machine.finals = circling.finals ∧ b.machine.alphabet = circling.alphabet ∧
      b.convert .enfa = .ok c ∧ c.convert .nfa = .ok b :=
  have h : ofMachine .enfa circling = .ok ⟨.enfa, circling⟩ := rfl
  ⟨h, convert_nfa_normal h⟩

end Automaton

end Acceptor
