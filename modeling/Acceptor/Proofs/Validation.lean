import Acceptor.Automaton
import Acceptor.Machine.Demands

/-!
# Validation decides the demands

A machine without a defect meets the demands of its kind, and the other way round. Defects are
listed state by state and label by label; the demands speak of the targets of ids, whatever the
order of the groups that hold them.

## Main results

* `Machine.defects_eq_nil`: there is no defect exactly if the demands are met.
* `Machine.Meets.nfa`, `Machine.Meets.enfa`: the demands get weaker from kind to kind.
-/

namespace Acceptor

namespace Machine

variable {k : Kind} {m : Machine} {s : State} {l : Label} {qs : List Nat}

/-! ### Defects of the parts -/

theorem initialDefects_eq_nil : m.initialDefects k = [] ↔
    m.initial ≠ [] ∧ (k = .dfa → m.initial.length = 1) := by
  rw [initialDefects]
  split
  · next h => simp [h]
  · next h => simp [h]

theorem rangeDefects_eq_nil : m.rangeDefects qs = [] ↔ ∀ q ∈ qs, q < m.size := by
  simp [rangeDefects]

theorem groupDefects_eq_nil : m.groupDefects k s l qs = [] ↔
    (∀ q ∈ qs, q < m.size) ∧ (∀ c, l = .letter c → c ∈ m.alphabet) ∧
      (l = .epsilon → k = .enfa) ∧ (k = .dfa → qs.length ≤ 1) := by
  simp only [groupDefects, List.append_eq_nil_iff, rangeDefects_eq_nil, and_assoc]
  refine and_congr_right fun _ => ?_
  cases l <;> simp

theorem missingLetters_eq_nil : m.missingLetters s = [] ↔
    ∀ c ∈ m.alphabet, s.edges.targets (.letter c) ≠ [] := by
  simp [missingLetters, Edges.has, Alphabet.mem_def]

/-- The demands on one state, said of its edges. -/
structure StateMeets (k : Kind) (m : Machine) (s : State) : Prop where
  /-- Edges lead to states. -/
  target_lt : ∀ l, ∀ q ∈ s.edges.targets l, q < m.size
  /-- Letters on edges are in the alphabet. -/
  letter_mem : ∀ c, s.edges.targets (.letter c) ≠ [] → c ∈ m.alphabet
  /-- Only one kind has empty moves. -/
  no_epsilon : k ≠ .enfa → s.edges.targets .epsilon = []
  /-- No label of a deterministic automaton has two targets. -/
  single : k = .dfa → ∀ l, (s.edges.targets l).length ≤ 1
  /-- A state of a deterministic automaton has an edge on each letter of the alphabet. -/
  total : k = .dfa → ∀ c ∈ m.alphabet, s.edges.targets (.letter c) ≠ []

theorem stateDefects_eq_nil : m.stateDefects k s = [] ↔ m.StateMeets k s := by
  have hmissing : (if k = .dfa ∧ m.missingLetters s ≠ []
        then [Defect.missingLetters s.name (m.missingLetters s)] else []) = [] ↔
      (k = .dfa → m.missingLetters s = []) := by simp
  rw [stateDefects, List.append_eq_nil_iff, List.flatMap_eq_nil_iff, hmissing,
    missingLetters_eq_nil]
  constructor
  · rintro ⟨hgroups, htotal⟩
    have hgroup (l : Label) (hl : s.edges.targets l ≠ []) :=
      groupDefects_eq_nil.mp (hgroups (l, s.edges.targets l) (Edges.mem_groups.mpr ⟨rfl, hl⟩))
    refine ⟨fun l q hq => (hgroup l (List.ne_nil_of_mem hq)).1 q hq,
      fun c hc => (hgroup _ hc).2.1 c rfl, fun hk => ?_, fun hk l => ?_, htotal⟩
    · exact Decidable.byContradiction fun hne => hk ((hgroup _ hne).2.2.1 rfl)
    · by_cases hl : s.edges.targets l = []
      · simp [hl]
      · exact (hgroup l hl).2.2.2 hk
  · intro h
    refine ⟨fun g hg => ?_, h.total⟩
    obtain ⟨htargets, hne⟩ := Edges.mem_groups.mp hg
    rw [groupDefects_eq_nil, ← htargets]
    rw [← htargets] at hne
    refine ⟨h.target_lt g.1, fun c hc => h.letter_mem c (hc ▸ hne), fun hl => ?_,
      fun hk => h.single hk g.1⟩
    exact Decidable.byContradiction fun hk => hne (hl ▸ h.no_epsilon hk)

/-! ### Defects of the machine -/

theorem exists_state {q : Nat} (h : q < m.size) : ∃ s, m.graph.states[q]? = some s :=
  ⟨_, Array.getElem?_eq_getElem h⟩

theorem Meets.state {q : Nat} (h : m.Meets k) (hs : m.graph.states[q]? = some s) :
    m.StateMeets k s := by
  have hq : q < m.size := (Array.getElem?_eq_some_iff.mp hs).1
  have htargets := Graph.targets_eq_of_getElem? hs
  refine ⟨fun l r hr => h.target_lt q l r (htargets l ▸ hr),
    fun c hc => h.letter_mem q c (htargets _ ▸ hc), fun hk => htargets _ ▸ h.no_epsilon hk q,
    fun hk l => ?_, fun hk c hc => ?_⟩
  · cases l with
    | letter c =>
      by_cases hc : c ∈ m.alphabet
      · obtain ⟨r, hr⟩ := h.letter_single hk q hq c hc
        simp [← htargets, hr]
      · have hnil : m.graph.targets q (.letter c) = [] :=
          Decidable.byContradiction fun hne => hc (h.letter_mem q c hne)
        simp [← htargets, hnil]
    | any => exact htargets _ ▸ h.any_single hk q
    | epsilon => simp [← htargets, h.no_epsilon (by simp [hk]) q]
  · obtain ⟨r, hr⟩ := h.letter_single hk q hq c hc
    simp [← htargets, hr]

theorem meets_of_states (hne : m.initial ≠ []) (hsingle : k = .dfa → m.initial.length = 1)
    (hinitial : ∀ q ∈ m.initial, q < m.size) (hfinal : ∀ q ∈ m.finals, q < m.size)
    (hstates : ∀ s ∈ m.graph.states, m.StateMeets k s) : m.Meets k := by
  -- an id that is no state has no targets, so only states have to be looked at
  have hcases (q : Nat) : (∀ l, m.graph.targets q l = []) ∨
      ∃ s, m.StateMeets k s ∧ ∀ l, m.graph.targets q l = s.edges.targets l := by
    by_cases hq : q < m.size
    · obtain ⟨s, hs⟩ := exists_state hq
      exact .inr ⟨s, hstates s (Array.mem_of_getElem? hs), Graph.targets_eq_of_getElem? hs⟩
    · exact .inl fun l => Graph.targets_eq_nil (Nat.not_lt.mp hq)
  refine ⟨hne, hsingle, hinitial, hfinal, fun q l => ?_, fun q c => ?_, fun hk q => ?_,
    fun hk q hq c hc => ?_, fun hk q => ?_⟩
  · rcases hcases q with h | ⟨s, hs, h⟩
    · simp [h]
    · exact h l ▸ hs.target_lt l
  · rcases hcases q with h | ⟨s, hs, h⟩
    · simp [h]
    · exact h _ ▸ hs.letter_mem c
  · rcases hcases q with h | ⟨s, hs, h⟩
    · exact h _
    · exact h _ ▸ hs.no_epsilon hk
  · obtain ⟨s, hs⟩ := exists_state hq
    have hmeets := hstates s (Array.mem_of_getElem? hs)
    rw [Graph.targets_eq_of_getElem? hs]
    refine List.length_eq_one_iff.mp (Nat.le_antisymm (hmeets.single hk _) ?_)
    exact List.length_pos_iff.mpr (hmeets.total hk c hc)
  · rcases hcases q with h | ⟨s, hs, h⟩
    · simp [h]
    · exact h _ ▸ hs.single hk _

/-- **Validation decides the demands.** -/
theorem defects_eq_nil : m.defects k = [] ↔ m.Meets k := by
  have hrange : m.rangeDefects (m.initial ++ m.finals) = [] ↔
      (∀ q ∈ m.initial, q < m.size) ∧ ∀ q ∈ m.finals, q < m.size := by
    simp only [rangeDefects_eq_nil, List.mem_append, or_imp, forall_and]
  rw [defects, List.append_eq_nil_iff, List.append_eq_nil_iff, initialDefects_eq_nil, hrange,
    List.flatMap_eq_nil_iff]
  simp only [stateDefects_eq_nil]
  constructor
  · rintro ⟨⟨⟨hne, hsingle⟩, hinitial, hfinal⟩, hstates⟩
    exact meets_of_states hne hsingle hinitial hfinal fun s hs =>
      hstates s (Array.mem_toList_iff.mpr hs)
  · intro h
    refine ⟨⟨⟨h.initial_ne_nil, h.initial_single⟩, h.initial_lt, h.final_lt⟩, fun s hs => ?_⟩
    obtain ⟨q, hq⟩ := Array.getElem?_of_mem (Array.mem_toList_iff.mp hs)
    exact h.state hq

theorem validate_eq_ok_iff : m.validate k = .ok () ↔ m.Meets k :=
  validate_eq_ok.trans defects_eq_nil

/-! ### Demands by kind -/

/-- What a kind demands, the kinds that allow more demand too. -/
theorem Meets.weaken {k' : Kind} (h : m.Meets k) (hdfa : k' ≠ .dfa)
    (hepsilon : k' ≠ .enfa → k ≠ .enfa) : m.Meets k' where
  initial_ne_nil := h.initial_ne_nil
  initial_single hk := absurd hk hdfa
  initial_lt := h.initial_lt
  final_lt := h.final_lt
  target_lt := h.target_lt
  letter_mem := h.letter_mem
  no_epsilon hk := h.no_epsilon (hepsilon hk)
  letter_single hk := absurd hk hdfa
  any_single hk := absurd hk hdfa

theorem Meets.nfa (h : m.Meets .dfa) : m.Meets .nfa := h.weaken (by simp) (by simp)

theorem Meets.enfa (h : m.Meets k) : m.Meets .enfa := h.weaken (by simp) (by simp)

theorem Meets.confined (h : m.Meets k) : m.graph.confined := Graph.confined_iff.mpr h.target_lt

theorem Meets.eq_nil_of_not_mem {q : Nat} {c : Char} (h : m.Meets k) (hc : c ∉ m.alphabet) :
    m.graph.targets q (.letter c) = [] :=
  Decidable.byContradiction fun hne => hc (h.letter_mem q c hne)

end Machine

/-! ### Making automata -/

namespace Automaton

open Machine

variable {k : Kind} {m n : Machine} {a : Automaton}

theorem ofMachine_eq_ok : ofMachine k m = .ok a ↔ m.check k = .ok () ∧ a = ⟨k, m⟩ := by
  rw [ofMachine]
  cases m.check k <;> simp [bind, Except.bind, pure, Except.pure, eq_comm]

theorem check_eq_ok (hk : k ≠ .dfa) : m.check k = .ok () ↔ m.Meets k := by
  rw [Machine.check]
  rw [← validate_eq_ok_iff]
  cases m.validate k <;> simp [bind, Except.bind, hk]

/-- An automaton that need not be deterministic has to meet the demands of its kind, no more. -/
theorem ofMachine_eq_ok_iff_meets (hk : k ≠ .dfa) :
    ofMachine k m = .ok a ↔ m.Meets k ∧ a = ⟨k, m⟩ := by
  rw [ofMachine_eq_ok, check_eq_ok hk]

theorem check_dfa_eq_ok : m.check .dfa = .ok () ↔ m.Meets .dfa ∧ m.coverage = .ok () := by
  rw [Machine.check]
  rw [← validate_eq_ok_iff]
  cases m.validate .dfa <;> simp [bind, Except.bind]

/-- A machine of the right shape is refused for its coverage only. -/
theorem ofMachine_dfa_eq_error {d : Defect} (hvalid : m.validate .dfa = .ok ())
    (h : ofMachine .dfa m = .error d) : m.coverage = .error d := by
  rw [ofMachine, Machine.check] at h
  rw [hvalid] at h
  cases hcoverage : m.coverage with
  | ok => simp [bind, Except.bind, pure, Except.pure, hcoverage] at h
  | error e => simpa [bind, Except.bind, hcoverage] using h

theorem checked_eq_ok : checked k m = .ok n ↔ m.check k = .ok () ∧ m = n := by
  rw [checked]
  split <;> simp_all

end Automaton

end Acceptor
