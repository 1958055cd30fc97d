import Acceptor.Machine.SameEdges
import Acceptor.Proofs.Determinization
import Acceptor.Proofs.Elimination

/-!
# Determinization depends on edges only

The order in which a machine lists its ids, labels and targets does not reach its deterministic
machine. Every list is made a set before it is used, and sets that have the same members are equal.
Labels are read in the order of the alphabet, whatever their order at the states. So the table of
moves, from which the sets are found, numbered and named, is one and the same.

Elimination keeps the order of the final ids, so its results differ where the machines do, but again
in order and names only.

## Main results

* `Machine.SameEdges.table`, `Machine.SameEdges.determinize?`: the same table, so the same result.
* `Machine.SameEdges.run`, `Machine.SameEdges.epsilonPath`: the same runs.
* `Machine.SameEdges.eliminate?`: elimination goes on with machines of the same edges.
* `Automaton.convert_dfa_eq_of_sameEdges`: one deterministic automaton and the same answers.
-/

namespace Acceptor

namespace Machine

variable {m n m' n' : Machine} {p q : Nat} {w : List Char} {s : IdSet}

/-! ### Tables -/

theorem SameEdges.symm (h : m.SameEdges n) : n.SameEdges m where
  size := h.size.symm
  initial q := (h.initial q).symm
  finals q := (h.finals q).symm
  targets p l q := (h.targets p l q).symm
  alphabet := h.alphabet.symm

theorem SameEdges.readLabels (h : m.SameEdges n) : n.readLabels = m.readLabels := by
  refine readLabels_congr h.alphabet ?_
  rw [hasWildcard_iff, hasWildcard_iff]
  exact exists_congr fun q => exists_congr fun r => h.targets q .any r

theorem SameEdges.initialSet (h : m.SameEdges n) : n.initialSet = m.initialSet :=
  IdSet.ext_mem fun q => by rw [mem_initialSet, mem_initialSet, h.initial]

theorem SameEdges.finalSet (h : m.SameEdges n) : n.finalSet = m.finalSet :=
  IdSet.ext_mem fun q => by rw [mem_finalSet, mem_finalSet, h.finals]

theorem SameEdges.initialSet? (h : m.SameEdges n) : n.initialSet? = m.initialSet? := by
  rw [Machine.initialSet?, Machine.initialSet?, h.initialSet, h.size]

theorem SameEdges.finalSet? (h : m.SameEdges n) : n.finalSet? = m.finalSet? := by
  rw [Machine.finalSet?, Machine.finalSet?, h.finalSet, h.size]

theorem SameEdges.move (h : m.SameEdges n) (s : IdSet) (l : Label) : n.move s l = m.move s l := by
  have himage (l : Label) : n.graph.image s l = m.graph.image s l :=
    IdSet.ext_mem fun r => by simp only [Graph.mem_image, h.targets]
  cases l with
  | letter c =>
    refine IdSet.ext_mem fun r => ?_
    show r ∈ n.graph.reading s c ↔ r ∈ m.graph.reading s c
    simp only [Graph.mem_reading, Graph.mem_step, h.targets]
  | any => exact himage .any
  | epsilon => exact himage .epsilon

theorem SameEdges.table (h : m.SameEdges n) : n.table = m.table := by
  have hrow : n.row = m.row := funext fun l => by
    simp only [row, h.size, h.move]
  rw [Machine.table, Machine.table, h.readLabels, hrow]

theorem SameEdges.covers (h : m.SameEdges n) : n.graph.covers s = m.graph.covers s :=
  Bool.eq_iff_iff.mpr <| by
    rw [Graph.covers_iff, Graph.covers_iff, show n.graph.size = m.graph.size from h.size]

theorem SameEdges.subsets? (h : m.SameEdges n) : n.subsets? = m.subsets? := by
  have hmoves : n.movesFrom? n.table = m.movesFrom? m.table := funext fun s => by
    rw [movesFrom?, movesFrom?, h.table, h.covers]
  simp only [Machine.subsets?, hmoves, h.size, h.initialSet?]

theorem subsetState_congr {table table' : List (Label × Array IdSet)}
    {hn : (table.map Prod.fst).Nodup} {hn' : (table'.map Prod.fst).Nodup} (h : table = table') :
    subsetState table hn = subsetState table' hn' := by
  subst h
  rfl

/-- Determinization does not tell machines of the same edges apart. -/
theorem SameEdges.determinize? (h : m.SameEdges n) : n.determinize? = m.determinize? := by
  have hstate : subsetState n.table n.table_nodup = subsetState m.table m.table_nodup :=
    subsetState_congr h.table
  simp only [Machine.determinize?, h.finalSet?, h.subsets?, hstate, h.alphabet]

/-! ### Runs -/

theorem SameEdges.epsilonPath (h : m.SameEdges n) (hpath : m.graph.EpsilonPath p q) :
    n.graph.EpsilonPath p q := by
  induction hpath with
  | refl => exact .refl _
  | tail _ hr ih => exact ih.tail ((h.targets _ _ _).mpr hr)

theorem SameEdges.epsilonPath_iff (h : m.SameEdges n) :
    n.graph.EpsilonPath p q ↔ m.graph.EpsilonPath p q :=
  ⟨h.symm.epsilonPath, h.epsilonPath⟩

theorem SameEdges.run (h : m.SameEdges n) (hrun : m.Run p w q) : n.Run p w q := by
  induction hrun with
  | stay q => exact .stay q
  | read hq hc _ ih => exact .read ((h.targets _ _ _).mpr hq) hc ih
  | skip hq _ ih => exact .skip ((h.targets _ _ _).mpr hq) ih

theorem SameEdges.run_iff (h : m.SameEdges n) : n.Run p w q ↔ m.Run p w q :=
  ⟨h.symm.run, h.run⟩

theorem SameEdges.reads_iff (h : m.SameEdges n) : n.Reads w ↔ m.Reads w := by
  simp only [Reads, h.initial, h.finals, h.run_iff]

theorem SameEdges.readsPast_iff (h : m.SameEdges n) : n.ReadsPast w ↔ m.ReadsPast w := by
  simp only [ReadsPast, h.initial, h.finals, h.run_iff, h.epsilonPath_iff]

/-! ### Elimination -/

/-- Without their empty moves the machines still have the same edges. -/
theorem SameEdges.eliminate? (h : m.SameEdges n) (hm : m.eliminate? = some m')
    (hn : n.eliminate? = some n') : m'.SameEdges n' := by
  obtain ⟨-, -, -, hmfinals, hmalphabet⟩ := eliminate?_eq_some hm
  obtain ⟨-, -, -, hnfinals, hnalphabet⟩ := eliminate?_eq_some hn
  refine ⟨?_, fun q => ?_, fun q => ?_, fun p l q => ?_, ?_⟩
  · rw [size_of_eliminate? hn, size_of_eliminate? hm, h.size]
  · simp only [mem_initial_of_eliminate? hn, mem_initial_of_eliminate? hm, h.initial,
      h.epsilonPath_iff]
  · rw [hnfinals, hmfinals, h.finals]
  · simp only [mem_targets_of_eliminate? hn, mem_targets_of_eliminate? hm, h.readLabels,
      h.epsilonPath_iff, h.targets]
  · rw [hnalphabet, hmalphabet, h.alphabet]

end Machine

namespace Automaton

open Machine

variable {m n : Machine} {k : Kind}

theorem determinized_eq_of_sameEdges (h : m.SameEdges n) : determinized n = determinized m := by
  rw [determinized, determinized, h.determinize?]

/-- Automata of machines with the same edges answer alike. -/
theorem accepts?_eq_of_sameEdges (hk : k ≠ .dfa) (hm : m.Meets k) (hn : n.Meets k)
    (h : m.SameEdges n) (w : String) :
    ∃ x, accepts? ⟨k, m⟩ w = some x ∧ accepts? ⟨k, n⟩ w = some x := by
  cases k with
  | dfa => exact absurd rfl hk
  | nfa =>
    obtain ⟨x, hx, hxiff⟩ := accepts?_nfa hm w
    obtain ⟨y, hy, hyiff⟩ := accepts?_nfa hn w
    obtain rfl : y = x := Bool.eq_iff_iff.mpr (hyiff.trans (h.reads_iff.trans hxiff.symm))
    exact ⟨y, hx, hy⟩
  | enfa =>
    obtain ⟨x, hx, hxiff⟩ := accepts?_enfa hm w
    obtain ⟨y, hy, hyiff⟩ := accepts?_enfa hn w
    obtain rfl : y = x := Bool.eq_iff_iff.mpr (hyiff.trans (h.readsPast_iff.trans hxiff.symm))
    exact ⟨y, hx, hy⟩

/-- Conversion to a deterministic automaton does not tell machines of the same edges apart. -/
theorem exists_convert_dfa_of_sameEdges (hk : k ≠ .dfa) (hm : m.Meets k) (hn : n.Meets k)
    (h : m.SameEdges n) :
    ∃ d, convert ⟨k, m⟩ .dfa = .ok d ∧ convert ⟨k, n⟩ .dfa = .ok d := by
  cases k with
  | dfa => exact absurd rfl hk
  | nfa =>
    obtain ⟨d, hd, -⟩ := determinized_eq_ok hm
    have hd' : determinized n = .ok d := (determinized_eq_of_sameEdges h).trans hd
    exact ⟨⟨.dfa, d⟩, convert_nfa_dfa hd, convert_nfa_dfa hd'⟩
  | enfa =>
    obtain ⟨m', helim, hm', hmeets⟩ := eliminated_eq_ok hm
    obtain ⟨n', helim', hn', -⟩ := eliminated_eq_ok hn
    obtain ⟨d, hd, -⟩ := determinized_eq_ok hmeets
    have hd' : determinized n' = .ok d :=
      (determinized_eq_of_sameEdges (h.eliminate? hm' hn')).trans hd
    exact ⟨⟨.dfa, d⟩, convert_enfa_dfa helim hd, convert_enfa_dfa helim' hd'⟩

/-- **Determinization depends on edges only.** Of two machines that have the same edges, initial ids
and final ids over the same alphabet, let each make an automaton of the same kind, with or without
empty moves. Both convert to one and the same deterministic automaton, the names and the order of
its states and edges included, and both accept the same words. -/
theorem convert_dfa_eq_of_sameEdges (hk : k ≠ .dfa) (hm : m.validate k = .ok ())
    (hn : n.validate k = .ok ()) (h : m.SameEdges n) :
    ∃ a b d, ofMachine k m = .ok a ∧ ofMachine k n = .ok b ∧
      a.convert .dfa = .ok d ∧ b.convert .dfa = .ok d ∧
      ∀ w, ∃ x, a.accepts? w = some x ∧ b.accepts? w = some x := by
  have hm := validate_eq_ok_iff.mp hm
  have hn := validate_eq_ok_iff.mp hn
  obtain ⟨d, hd, hd'⟩ := exists_convert_dfa_of_sameEdges hk hm hn h
  exact ⟨⟨k, m⟩, ⟨k, n⟩, d, (ofMachine_eq_ok_iff_meets hk).mpr ⟨hm, rfl⟩,
    (ofMachine_eq_ok_iff_meets hk).mpr ⟨hn, rfl⟩, hd, hd', accepts?_eq_of_sameEdges hk hm hn h⟩

/-- Two states with the letter `a`, which leads from the first to both. Empty moves lead from each
to the other, and any character from the second to the first. -/
def swaying : Machine where
  graph := ⟨#[⟨"p", .ofList [(.letter 'a', 1), (.letter 'a', 0), (.epsilon, 1)]⟩,
    ⟨"q", .ofList [(.epsilon, 0), (.any, 0)]⟩]⟩
  initial := [0, 1]
  finals := [1, 0]
  alphabet := .ofList ['a']

/-- The same edges in another order, between states of other names. -/
def swayingBack : Machine where
  graph := ⟨#[⟨"s", .ofList [(.epsilon, 1), (.letter 'a', 0), (.letter 'a', 1)]⟩,
    ⟨"s", .ofList [(.any, 0), (.epsilon, 0)]⟩]⟩
  initial := [1, 0, 1]
  finals := [0, 1, 1]
  alphabet := .ofList ['a']

theorem sameEdges_swaying : swaying.SameEdges swayingBack := by
  refine ⟨rfl, fun q => ?_, fun q => ?_, fun p l q => ?_, rfl⟩
  · simp [swaying, swayingBack]
    omega
  · simp [swaying, swayingBack]
    omega
  · rcases p with _ | _ | p <;>
      simp [swaying, swayingBack, Graph.targets, Graph.targets?, Graph.edges?] <;> tauto

theorem convert_dfa_eq_of_sameEdges_swaying :
    swaying.validate .enfa = .ok () ∧ swayingBack.validate .enfa = .ok () ∧
    swaying.SameEdges swayingBack ∧
    ∃ a b d, ofMachine .enfa swaying = .ok a ∧ ofMachine .enfa swayingBack = .ok b ∧
      a.convert .dfa = .ok d ∧ b.convert .dfa = .ok d ∧
      ∀ w, ∃ x, a.accepts? w = some x ∧ b.accepts? w = some x := by
  have hm : swaying.validate .enfa = .ok () := by decide +kernel
  have hn : swayingBack.validate .enfa = .ok () := by decide +kernel
  exact ⟨hm, hn, sameEdges_swaying,
    convert_dfa_eq_of_sameEdges (by decide) hm hn sameEdges_swaying⟩

end Automaton

end Acceptor
