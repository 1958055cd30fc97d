import Acceptor.Machine.Runs
import Acceptor.Proofs.Validation

/-!
# Tracking follows the runs

Tracking goes from set to set, a run from state to state. The set that tracking comes to holds
exactly the ends of the runs that read the same word. With empty moves this needs sets that are
closed under them; without empty moves any set of states will do.

Acceptance with empty moves is looser than the language of a machine: it asks for the end of a run
among the states that empty moves reach *from* a final one.

## Main results

* `Machine.run_nil_iff`, `Machine.run_cons_iff`: a run, read from its front.
* `Machine.track?_spec`, `Machine.tracksFrom?_spec`: tracking without empty moves.
* `Machine.closedTracks?_spec`: tracking with empty moves.
* `Automaton.accepts?_nfa`, `Automaton.accepts?_enfa`: what automata of the two kinds accept.
-/

namespace Acceptor

namespace Graph

variable {g : Graph} {p q r : Nat}

/-! ### Paths of empty moves -/

theorem EpsilonPath.trans (h : g.EpsilonPath p q) (h' : g.EpsilonPath q r) :
    g.EpsilonPath p r := by
  induction h' with
  | refl => exact h
  | tail _ hr ih => exact ih.tail hr

theorem EpsilonPath.head (hq : q ∈ g.targets p .epsilon) (h : g.EpsilonPath q r) :
    g.EpsilonPath p r :=
  ((EpsilonPath.refl p).tail hq).trans h

/-- A path of empty moves does not leave a state without any. -/
theorem EpsilonPath.eq_of_targets (hp : g.targets p .epsilon = []) (h : g.EpsilonPath p q) :
    p = q := by
  induction h with
  | refl => rfl
  | tail _ hr ih =>
    subst ih
    simp [hp] at hr

end Graph

namespace Machine

variable {m : Machine} {p q r : Nat} {c : Char} {w : List Char} {s : IdSet}

/-! ### Runs from the front -/

theorem Run.of_epsilonPath (h : m.graph.EpsilonPath p q) (hrun : m.Run q w r) : m.Run p w r := by
  induction h with
  | refl => exact hrun
  | tail _ hr ih => exact ih (.skip hr hrun)

theorem run_nil_iff : m.Run p [] q ↔ m.graph.EpsilonPath p q := by
  refine ⟨fun h => ?_, fun h => .of_epsilonPath h (.stay q)⟩
  generalize hw : [] = w at h
  induction h with
  | stay => exact .refl _
  | read => cases hw
  | skip hq _ ih => exact (ih hw).head hq

theorem run_cons_iff : m.Run p (c :: w) r ↔
    ∃ p' q, m.graph.EpsilonPath p p' ∧ q ∈ m.graph.step p' c ∧ m.Run q w r := by
  constructor
  · intro h
    generalize hv : c :: w = v at h
    induction h with
    | stay => cases hv
    | read hq hl hrun =>
      cases hv
      exact ⟨_, _, .refl _, Graph.mem_step.mpr ⟨_, hl, hq⟩, hrun⟩
    | skip hq _ ih =>
      obtain ⟨p', q', hpath, hstep, hrun⟩ := ih hv
      exact ⟨p', q', hpath.head hq, hstep, hrun⟩
  · rintro ⟨p', q, hpath, hstep, hrun⟩
    obtain ⟨l, hl, hq⟩ := Graph.mem_step.mp hstep
    exact .of_epsilonPath hpath (.read hq hl hrun)

/-- The words that some run from `p` to a final state reads. -/
def ReadsFrom (m : Machine) (p : Nat) (w : List Char) : Prop := ∃ q ∈ m.finals, m.Run p w q

theorem reads_iff : m.Reads w ↔ ∃ p ∈ m.initialSet, m.ReadsFrom p w := by
  simp [Reads, ReadsFrom]

/-! ### Tracking without empty moves -/

section WithoutEmptyMoves

variable (hepsilon : ∀ p, m.graph.targets p .epsilon = [])

include hepsilon

theorem run_nil_iff_eq : m.Run p [] q ↔ p = q := by
  rw [run_nil_iff]
  exact ⟨fun h => h.eq_of_targets (hepsilon p), fun h => h ▸ .refl p⟩

theorem run_cons_iff_step : m.Run p (c :: w) r ↔ ∃ q ∈ m.graph.step p c, m.Run q w r := by
  rw [run_cons_iff]
  constructor
  · rintro ⟨p', q, hpath, hstep, hrun⟩
    obtain rfl := hpath.eq_of_targets (hepsilon p)
    exact ⟨q, hstep, hrun⟩
  · rintro ⟨q, hstep, hrun⟩
    exact ⟨p, q, .refl p, hstep, hrun⟩

theorem readsFrom_nil : m.ReadsFrom p [] ↔ p ∈ m.finals := by
  simp only [ReadsFrom, run_nil_iff_eq hepsilon]
  constructor
  · rintro ⟨q, hq, rfl⟩
    exact hq
  · intro hp
    exact ⟨p, hp, rfl⟩

theorem readsFrom_cons : m.ReadsFrom p (c :: w) ↔ ∃ q ∈ m.graph.step p c, m.ReadsFrom q w := by
  simp only [ReadsFrom, run_cons_iff_step hepsilon]
  constructor
  · rintro ⟨r, hr, q, hq, hrun⟩
    exact ⟨q, hq, r, hr, hrun⟩
  · rintro ⟨q, hq, r, hr, hrun⟩
    exact ⟨r, hr, q, hq, hrun⟩

theorem exists_readsFrom_cons :
    (∃ p ∈ s, m.ReadsFrom p (c :: w)) ↔ ∃ q ∈ m.graph.reading s c, m.ReadsFrom q w := by
  simp only [readsFrom_cons hepsilon, Graph.mem_reading]
  constructor
  · rintro ⟨p, hp, q, hq, h⟩
    exact ⟨q, ⟨p, hp, hq⟩, h⟩
  · rintro ⟨q, ⟨p, hp, hq⟩, h⟩
    exact ⟨p, hp, q, hq, h⟩

variable (hconfined : m.graph.confined)

include hconfined

theorem track?_spec (hs : ∀ p ∈ s, p < m.size) (w : List Char) :
    ∃ t, m.track? s w = some t ∧ ∀ q, q ∈ t ↔ ∃ p ∈ s, m.Run p w q := by
  induction w generalizing s with
  | nil => exact ⟨s, rfl, fun q => by simp [run_nil_iff_eq hepsilon]⟩
  | cons c w ih =>
    obtain ⟨t, ht, hmem⟩ := ih fun q hq => Graph.lt_size_of_mem_reading hconfined hq
    refine ⟨t, ?_, fun q => ?_⟩
    · rw [track?, List.foldlM_cons,
        Graph.reading?_eq hs fun q hq => Graph.lt_size_of_mem_reading hconfined hq]
      exact ht
    · simp only [hmem, Graph.mem_reading, run_cons_iff_step hepsilon]
      constructor
      · rintro ⟨r, ⟨p, hp, hr⟩, hrun⟩
        exact ⟨p, hp, r, hr, hrun⟩
      · rintro ⟨p, hp, r, hr, hrun⟩
        exact ⟨r, ⟨p, hp, hr⟩, hrun⟩

end WithoutEmptyMoves

/-- Whether tracking from the members of `s` ends in a set with a final state. -/
def tracksFrom? (m : Machine) (s : IdSet) (w : List Char) : Option Bool :=
  (m.track? s w).map (·.meets m.finalSet)

theorem tracksFrom?_spec (hepsilon : ∀ p, m.graph.targets p .epsilon = [])
    (hconfined : m.graph.confined) (hs : ∀ p ∈ s, p < m.size) (w : List Char) :
    ∃ b, m.tracksFrom? s w = some b ∧ (b = true ↔ ∃ p ∈ s, m.ReadsFrom p w) := by
  obtain ⟨t, ht, hmem⟩ := track?_spec hepsilon hconfined hs w
  refine ⟨t.meets m.finalSet, by simp [tracksFrom?, ht], ?_⟩
  rw [IdSet.meets_iff]
  constructor
  · rintro ⟨q, hq, hfinal⟩
    obtain ⟨p, hp, hrun⟩ := (hmem q).mp hq
    exact ⟨p, hp, q, mem_finalSet.mp hfinal, hrun⟩
  · rintro ⟨p, hp, q, hfinal, hrun⟩
    exact ⟨q, (hmem q).mpr ⟨p, hp, hrun⟩, mem_finalSet.mpr hfinal⟩

/-- Tracking without empty moves decides the language. -/
theorem tracks?_spec (hepsilon : ∀ p, m.graph.targets p .epsilon = [])
    (hconfined : m.graph.confined) (hinitial : ∀ p ∈ m.initial, p < m.size)
    (hfinal : ∀ f ∈ m.finals, f < m.size) (w : List Char) :
    ∃ b, m.tracks? w = some b ∧ (b = true ↔ m.Reads w) := by
  have hs : ∀ p ∈ m.initialSet, p < m.size := by simpa using hinitial
  obtain ⟨b, hb, hiff⟩ := tracksFrom?_spec hepsilon hconfined hs w
  refine ⟨b, ?_, hiff.trans reads_iff.symm⟩
  obtain ⟨t, ht, rfl⟩ := Option.map_eq_some_iff.mp hb
  rw [tracks?, initialSet?_eq fun p hp => .inl (hinitial p hp),
    finalSet?_eq fun f hf => .inl (hfinal f hf)]
  simp [ht]

/-! ### Tracking with empty moves -/

/-- A word that some run from an initial state reads, whose end empty moves reach from a final
state. The empty moves run against the direction that an accepting run would take. -/
def ReadsPast (m : Machine) (w : List Char) : Prop :=
  ∃ p ∈ m.initial, ∃ f ∈ m.finals, ∃ q, m.Run p w q ∧ m.graph.EpsilonPath f q

theorem Reads.readsPast (h : m.Reads w) : m.ReadsPast w := by
  obtain ⟨p, hp, f, hf, hrun⟩ := h
  exact ⟨p, hp, f, hf, f, hrun, .refl f⟩

/-- Acceptance with empty moves is the language if every state behind a final one has a final one
behind it. -/
theorem readsPast_iff
    (hfinal : ∀ f ∈ m.finals, ∀ q, m.graph.EpsilonPath f q →
      ∃ f' ∈ m.finals, m.graph.EpsilonPath q f') : m.ReadsPast w ↔ m.Reads w := by
  constructor
  · rintro ⟨p, hp, f, hf, q, hrun, hpath⟩
    obtain ⟨f', hf', hpath'⟩ := hfinal f hf q hpath
    have hskip := hrun.append (run_nil_iff.mpr hpath')
    exact ⟨p, hp, f', hf', by simpa using hskip⟩
  · exact Reads.readsPast

variable (hconfined : m.graph.confined)

include hconfined

theorem closedReading?_spec (hs : ∀ p ∈ s, p < m.size) :
    ∃ t, m.closedReading? s c = some t ∧
      ∀ q, q ∈ t ↔ ∃ p ∈ s, ∃ p' ∈ m.graph.step p c, m.graph.EpsilonPath p' q := by
  have hstep : ∀ q ∈ m.graph.reading s c, q < m.size := fun q hq =>
    Graph.lt_size_of_mem_reading hconfined hq
  refine ⟨m.graph.closure (m.graph.reading s c), ?_, fun q => ?_⟩
  · rw [closedReading?, Graph.reading?_eq hs hstep]
    exact Graph.closure?_eq hconfined hstep
  · rw [Graph.mem_closure hconfined hstep]
    constructor
    · rintro ⟨p', hp', hpath⟩
      obtain ⟨p, hp, hp'⟩ := Graph.mem_reading.mp hp'
      exact ⟨p, hp, p', hp', hpath⟩
    · rintro ⟨p, hp, p', hp', hpath⟩
      exact ⟨p', Graph.mem_reading.mpr ⟨p, hp, hp'⟩, hpath⟩

theorem closedTrack_spec (hs : ∀ p ∈ s, p < m.size)
    (hclosed : ∀ p ∈ s, ∀ q, m.graph.EpsilonPath p q → q ∈ s) (w : List Char) :
    ∃ t, w.foldlM m.closedReading? s = some t ∧ ∀ q, q ∈ t ↔ ∃ p ∈ s, m.Run p w q := by
  induction w generalizing s with
  | nil =>
    refine ⟨s, rfl, fun q => ?_⟩
    simp only [run_nil_iff]
    constructor
    · intro hq
      exact ⟨q, hq, .refl q⟩
    · rintro ⟨p, hp, hpath⟩
      exact hclosed p hp q hpath
  | cons c w ih =>
    obtain ⟨u, hu, hmem⟩ := closedReading?_spec hconfined hs (c := c)
    have hlt : ∀ q ∈ u, q < m.size := by
      intro q hq
      obtain ⟨p, -, p', hp', hpath⟩ := (hmem q).mp hq
      exact hpath.lt_size hconfined (Graph.lt_size_of_mem_step hconfined hp')
    have huclosed : ∀ p ∈ u, ∀ q, m.graph.EpsilonPath p q → q ∈ u := by
      intro p hp q hpath
      obtain ⟨p₀, hp₀, p', hp', hpath'⟩ := (hmem p).mp hp
      exact (hmem q).mpr ⟨p₀, hp₀, p', hp', hpath'.trans hpath⟩
    obtain ⟨t, ht, htmem⟩ := ih hlt huclosed
    refine ⟨t, ?_, fun q => ?_⟩
    · rw [List.foldlM_cons, hu]
      exact ht
    · rw [htmem]
      constructor
      · rintro ⟨r, hr, hrun⟩
        obtain ⟨p, hp, p', hp', hpath⟩ := (hmem r).mp hr
        exact ⟨p, hp, run_cons_iff.mpr ⟨p, p', .refl p, hp', .of_epsilonPath hpath hrun⟩⟩
      · rintro ⟨p, hp, hrun⟩
        obtain ⟨p', r, hpath, hstep, hrun⟩ := run_cons_iff.mp hrun
        exact ⟨r, (hmem r).mpr ⟨p', hclosed p hp p' hpath, r, hstep, .refl r⟩, hrun⟩

/-- Tracking with empty moves decides whether a word is read past a final state. -/
theorem closedTracks?_spec (hinitial : ∀ p ∈ m.initial, p < m.size)
    (hfinal : ∀ f ∈ m.finals, f < m.size) (w : List Char) :
    ∃ b, m.closedTracks? w = some b ∧ (b = true ↔ m.ReadsPast w) := by
  have hi : ∀ p ∈ m.initialSet, p < m.size := by simpa using hinitial
  have hf : ∀ p ∈ m.finalSet, p < m.size := by simpa using hfinal
  have hstart := fun q => Graph.mem_closure (q := q) hconfined hi
  have hlt : ∀ p ∈ m.graph.closure m.initialSet, p < m.size := by
    intro p hp
    obtain ⟨p₀, hp₀, hpath⟩ := (hstart p).mp hp
    exact hpath.lt_size hconfined (hi p₀ hp₀)
  have hclosed : ∀ p ∈ m.graph.closure m.initialSet, ∀ q, m.graph.EpsilonPath p q →
      q ∈ m.graph.closure m.initialSet := by
    intro p hp q hpath
    obtain ⟨p₀, hp₀, hpath'⟩ := (hstart p).mp hp
    exact (hstart q).mpr ⟨p₀, hp₀, hpath'.trans hpath⟩
  obtain ⟨t, ht, hmem⟩ := closedTrack_spec hconfined hlt hclosed w
  refine ⟨t.meets (m.graph.closure m.finalSet), ?_, ?_⟩
  · rw [closedTracks?, initialSet?_eq fun p hp => .inl (hinitial p hp),
      finalSet?_eq fun f hf => .inl (hfinal f hf)]
    simp [Graph.closure?_eq hconfined hi, Graph.closure?_eq hconfined hf, ht]
  · simp only [IdSet.meets_iff, hmem, hstart, Graph.mem_closure hconfined hf, mem_initialSet,
      mem_finalSet]
    constructor
    · rintro ⟨q, ⟨p, ⟨p₀, hp₀, hpath⟩, hrun⟩, f, hf, hfq⟩
      exact ⟨p₀, hp₀, f, hf, q, .of_epsilonPath hpath hrun, hfq⟩
    · rintro ⟨p, hp, f, hf, q, hrun, hfq⟩
      exact ⟨q, ⟨p, ⟨p, hp, .refl p⟩, hrun⟩, f, hf, hfq⟩

end Machine

/-! ### What automata accept -/

namespace Automaton

variable {m : Machine}

theorem accepts?_nfa (hm : m.Meets .nfa) (w : String) :
    ∃ b, accepts? ⟨.nfa, m⟩ w = some b ∧ (b = true ↔ m.Reads w.toList) :=
  Machine.tracks?_spec (hm.no_epsilon (by simp)) hm.confined hm.initial_lt hm.final_lt w.toList

theorem accepts?_enfa (hm : m.Meets .enfa) (w : String) :
    ∃ b, accepts? ⟨.enfa, m⟩ w = some b ∧ (b = true ↔ m.ReadsPast w.toList) :=
  Machine.closedTracks?_spec hm.confined hm.initial_lt hm.final_lt w.toList

end Automaton

end Acceptor
