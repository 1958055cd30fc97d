import Acceptor.Proofs.Reading

/-!
# Eliminating empty moves keeps the language

An edge of the machine without empty moves stands for a path of the original: empty moves, one
edge that reads, empty moves. So the runs that read something correspond, and since the initial
states are closed under empty moves, so do those that read nothing.

Acceptance with empty moves is another matter. It looks for the end of a run behind a final state,
where elimination looks for the final state itself.

## Main results

* `Machine.mem_targets_of_eliminate?`: the edges of the machine without empty moves.
* `Machine.meets_of_eliminate?`, `Automaton.eliminated_eq_ok`: elimination succeeds.
* `Machine.reads_of_eliminate?`: elimination keeps the language.
* `Automaton.accepts?_iff_run_and_eliminated_iff_run`: what is accepted before and after, by runs.
-/

namespace Acceptor

namespace Machine

variable {m n : Machine} {k : Kind} {p q r : Nat} {l : Label} {w : List Char}

/-! ### The machine without empty moves -/

theorem Meets.mem_readLabels (h : m.Meets k) (hr : r ∈ m.graph.targets q l) (hl : l ≠ .epsilon) :
    l ∈ m.readLabels := by
  cases l with
  | letter c => exact letter_mem_readLabels.mpr (h.letter_mem q c (List.ne_nil_of_mem hr))
  | any => exact any_mem_readLabels.mpr (Graph.has_iff.mpr ⟨q, r, hr⟩)
  | epsilon => exact absurd rfl hl

theorem covers_initialSet (h : ∀ q ∈ m.initial, q < m.size) : m.graph.covers m.initialSet :=
  Graph.covers_iff.mpr fun q hq => h q (mem_initialSet.mp hq)

theorem eliminate?_isSome (h : m.Meets k) : m.eliminate?.isSome := by
  simp [eliminate?, h.confined, covers_initialSet h.initial_lt]

theorem eliminate?_eq_some (h : m.eliminate? = some n) :
    (m.graph.confined ∧ m.graph.covers m.initialSet) ∧
      n.graph.states =
        m.graph.states.mapIdx (fun q s => ⟨s.name, m.closedEdges m.graph.closures q⟩) ∧
      n.initial = (m.graph.closure m.initialSet).toList ∧ n.finals = m.finals ∧
      n.alphabet = m.alphabet := by
  rw [eliminate?] at h
  split at h
  · next hc =>
    obtain rfl := Option.some.inj h
    exact ⟨by simpa using hc, rfl, rfl, rfl, rfl⟩
  · cases h

theorem size_of_eliminate? (h : m.eliminate? = some n) : n.size = m.size := by
  obtain ⟨-, hstates, -⟩ := eliminate?_eq_some h
  simp [size, Graph.size, hstates]

theorem mem_initial_of_eliminate? (h : m.eliminate? = some n) :
    q ∈ n.initial ↔ ∃ p ∈ m.initial, m.graph.EpsilonPath p q := by
  obtain ⟨⟨hconfined, hcovers⟩, -, hinitial, -⟩ := eliminate?_eq_some h
  rw [hinitial, IdSet.mem_toList, Graph.mem_closure hconfined (Graph.covers_iff.mp hcovers)]
  simp

theorem closures_getElem? (hconfined : m.graph.confined) (hq : q < m.size) :
    ∃ s, m.graph.closures[q]? = some s ∧ ∀ r, r ∈ s ↔ m.graph.EpsilonPath q r := by
  have hlt : q < m.graph.size := hq
  have hone : ∀ p ∈ IdSet.ofList [q], p < m.graph.size := by simpa using hlt
  refine ⟨m.graph.closure (.ofList [q]), by simp [Graph.closures, hlt], fun r => ?_⟩
  rw [Graph.mem_closure hconfined hone]
  simp

theorem targets_closedEdges {closures : Array IdSet} (hl : l ∈ m.readLabels) :
    (m.closedEdges closures q).targets l =
      (IdSet.unionOver closures (m.graph.image ((closures[q]?).getD ∅) l)).toList := by
  rw [closedEdges]
  exact Edges.targets_ofSets (List.mem_map.mpr ⟨l, hl, rfl⟩)

theorem targets_closedEdges_eq_nil {closures : Array IdSet} (hl : l ∉ m.readLabels) :
    (m.closedEdges closures q).targets l = [] := by
  rw [closedEdges]
  exact Edges.targets_ofSets_of_not_mem (by simpa [Function.comp_def] using hl)

theorem mem_targets_closedEdges (hconfined : m.graph.confined) (hq : q < m.size) :
    r ∈ (m.closedEdges m.graph.closures q).targets l ↔ l ∈ m.readLabels ∧
      ∃ p p', m.graph.EpsilonPath q p ∧ p' ∈ m.graph.targets p l ∧ m.graph.EpsilonPath p' r := by
  obtain ⟨reach, hreach, hmem⟩ := closures_getElem? hconfined hq
  have himage : ∀ p ∈ m.graph.image reach l, p < m.graph.size := fun p hp =>
    Graph.lt_size_of_mem_image hconfined hp
  by_cases hl : l ∈ m.readLabels
  · rw [targets_closedEdges hl, hreach, Option.getD_some, IdSet.mem_toList,
      Graph.mem_unionOver_closures hconfined himage]
    simp only [Graph.mem_image, hmem, hl, true_and]
    constructor
    · rintro ⟨p', ⟨p, hp, hp'⟩, hr⟩
      exact ⟨p, p', hp, hp', hr⟩
    · rintro ⟨p, p', hp, hp', hr⟩
      exact ⟨p', ⟨p, hp, hp'⟩, hr⟩
  · simp [targets_closedEdges_eq_nil hl, hl]

theorem mem_targets_of_eliminate? (h : m.eliminate? = some n) :
    r ∈ n.graph.targets q l ↔ l ∈ m.readLabels ∧
      ∃ p p', m.graph.EpsilonPath q p ∧ p' ∈ m.graph.targets p l ∧ m.graph.EpsilonPath p' r := by
  obtain ⟨⟨hconfined, -⟩, hstates, -⟩ := eliminate?_eq_some h
  by_cases hq : q < m.size
  · obtain ⟨s, hs⟩ := exists_state hq
    rw [Graph.targets_eq_of_getElem? (by rw [hstates, Array.getElem?_mapIdx, hs]; rfl)]
    exact mem_targets_closedEdges hconfined hq
  · have hle : n.size ≤ q := size_of_eliminate? h ▸ Nat.not_lt.mp hq
    -- an id that is no state starts no path of the original but the one without a move
    rw [Graph.targets_eq_nil hle]
    refine iff_of_false List.not_mem_nil ?_
    rintro ⟨-, p, p', hpath, hp', -⟩
    obtain rfl := hpath.eq_of_targets (Graph.targets_eq_nil (Nat.not_lt.mp hq))
    exact hq (Graph.lt_size_of_mem_targets hp')

theorem targets_epsilon_of_eliminate? (h : m.eliminate? = some n) (q : Nat) :
    n.graph.targets q .epsilon = [] :=
  List.eq_nil_iff_forall_not_mem.mpr fun _ hr =>
    epsilon_not_mem_readLabels ((mem_targets_of_eliminate? h).mp hr).1

theorem meets_of_eliminate? (hm : m.Meets k) (h : m.eliminate? = some n) : n.Meets .nfa := by
  have hsize := size_of_eliminate? h
  obtain ⟨-, -, -, hfinals, halphabet⟩ := eliminate?_eq_some h
  have hlt {p q : Nat} (hpath : m.graph.EpsilonPath p q) (hp : p < m.size) : q < n.size :=
    hsize ▸ hpath.lt_size hm.confined hp
  refine ⟨?_, nofun, fun q hq => ?_, fun q hq => ?_, fun q l r hr => ?_, fun q c hc => ?_,
    fun _ => targets_epsilon_of_eliminate? h, nofun, nofun⟩
  · obtain ⟨p, hp⟩ := List.exists_mem_of_ne_nil _ hm.initial_ne_nil
    exact List.ne_nil_of_mem ((mem_initial_of_eliminate? h).mpr ⟨p, hp, .refl p⟩)
  · obtain ⟨p, hp, hpath⟩ := (mem_initial_of_eliminate? h).mp hq
    exact hlt hpath (hm.initial_lt p hp)
  · rw [hfinals] at hq
    exact hsize ▸ hm.final_lt q hq
  · obtain ⟨-, p, p', -, hp', hpath⟩ := (mem_targets_of_eliminate? h).mp hr
    exact hlt hpath (hm.target_lt p l p' hp')
  · obtain ⟨r, hr⟩ := List.exists_mem_of_ne_nil _ hc
    obtain ⟨-, p, p', -, hp', -⟩ := (mem_targets_of_eliminate? h).mp hr
    exact halphabet ▸ hm.letter_mem p c (List.ne_nil_of_mem hp')

/-! ### Runs of the machine without empty moves -/

/-- Every run of the original starts with empty moves, after which the machine without them can
follow. -/
theorem Run.of_original (hm : m.Meets k) (h : m.eliminate? = some n) (hrun : m.Run p w r) :
    ∃ q, m.graph.EpsilonPath p q ∧ n.Run q w r := by
  induction hrun with
  | stay q => exact ⟨q, .refl q, .stay q⟩
  | @read p q r l c w hq hc _ ih =>
    obtain ⟨q', hpath, hrun⟩ := ih
    have hl : l ≠ .epsilon := fun hl => by simp [hl] at hc
    have hedge : q' ∈ n.graph.targets p l :=
      (mem_targets_of_eliminate? h).mpr ⟨hm.mem_readLabels hq hl, p, q, .refl p, hq, hpath⟩
    exact ⟨p, .refl p, .read hedge hc hrun⟩
  | skip hq _ ih =>
    obtain ⟨q', hpath, hrun⟩ := ih
    exact ⟨q', hpath.head hq, hrun⟩

theorem Run.to_original (h : m.eliminate? = some n) (hrun : n.Run p w r) : m.Run p w r := by
  induction hrun with
  | stay q => exact .stay q
  | read hq hc _ ih =>
    obtain ⟨-, a, b, hpath, hb, hpath'⟩ := (mem_targets_of_eliminate? h).mp hq
    exact .of_epsilonPath hpath (.read hb hc (.of_epsilonPath hpath' ih))
  | skip hq =>
    rw [targets_epsilon_of_eliminate? h] at hq
    cases hq

/-- **Elimination keeps the language.** -/
theorem reads_of_eliminate? (hm : m.Meets k) (h : m.eliminate? = some n) :
    n.Reads w ↔ m.Reads w := by
  obtain ⟨-, -, -, hfinals, -⟩ := eliminate?_eq_some h
  constructor
  · rintro ⟨p, hp, q, hq, hrun⟩
    obtain ⟨p₀, hp₀, hpath⟩ := (mem_initial_of_eliminate? h).mp hp
    exact ⟨p₀, hp₀, q, hfinals ▸ hq, .of_epsilonPath hpath (hrun.to_original h)⟩
  · rintro ⟨p, hp, q, hq, hrun⟩
    obtain ⟨p', hpath, hrun'⟩ := hrun.of_original hm h
    exact ⟨p', (mem_initial_of_eliminate? h).mpr ⟨p, hp, hpath⟩, q, hfinals ▸ hq, hrun'⟩

end Machine

namespace Automaton

open Machine

variable {m n : Machine}

/-- Elimination succeeds and gives an automaton of the kind without empty moves. -/
theorem eliminated_eq_ok {k : Kind} (hm : m.Meets k) :
    ∃ n, eliminated m = .ok n ∧ m.eliminate? = some n ∧ n.Meets .nfa := by
  obtain ⟨n, hn⟩ := Option.isSome_iff_exists.mp (eliminate?_isSome hm)
  have hmeets := meets_of_eliminate? hm hn
  refine ⟨n, ?_, hn, hmeets⟩
  rw [eliminated, hn]
  exact checked_eq_ok.mpr ⟨(check_eq_ok (by simp)).mpr hmeets, rfl⟩

theorem convert_enfa_nfa (h : eliminated m = .ok n) : convert ⟨.enfa, m⟩ .nfa = .ok ⟨.nfa, n⟩ := by
  simp [convert, h, Except.map]

/-- **Where elimination keeps the answer.** An automaton with empty moves can always be converted.
The result accepts no word that the original rejects, and they agree on a word exactly if it is in
the language as soon as it is read past a final state. -/
theorem accepts?_eq_eliminated_iff {a : Automaton} (ha : ofMachine .enfa m = .ok a) :
    ∃ b, a.convert .nfa = .ok b ∧ ∀ w : String,
      (∃ x y, a.accepts? w = some x ∧ b.accepts? w = some y ∧ (y = true → x = true)) ∧
        (a.accepts? w = b.accepts? w ↔ (m.ReadsPast w.toList → m.Reads w.toList)) := by
  obtain ⟨hcheck, rfl⟩ := ofMachine_eq_ok.mp ha
  have hm := (check_eq_ok (by simp)).mp hcheck
  obtain ⟨n, hn, helim, hnm⟩ := eliminated_eq_ok hm
  refine ⟨⟨.nfa, n⟩, by simp [convert, hn, Except.map], fun w => ?_⟩
  obtain ⟨x, hx, hxiff⟩ := accepts?_enfa hm w
  obtain ⟨y, hy, hyiff⟩ := accepts?_nfa hnm w
  rw [reads_of_eliminate? hm helim] at hyiff
  have hle : m.Reads w.toList → m.ReadsPast w.toList := Reads.readsPast
  refine ⟨⟨x, y, hx, hy, fun h => hxiff.mpr (hle (hyiff.mp h))⟩, ?_⟩
  rw [hx, hy, Option.some_inj, Bool.eq_iff_iff, hxiff, hyiff]
  exact ⟨fun h => h.mp, fun h => ⟨h, hle⟩⟩

/-- Two states without a letter. The second is final, and an empty move leads from it to the first,
which is initial. -/
def returning : Machine where
  graph := ⟨#[⟨"p", ∅⟩, ⟨"q", .ofList [(.epsilon, 0)]⟩]⟩
  initial := [0]
  finals := [1]
  alphabet := ∅

theorem accepts?_eq_eliminated_iff_returning :
    ofMachine .enfa returning = .ok ⟨.enfa, returning⟩ ∧
      ∃ b, convert ⟨.enfa, returning⟩ .nfa = .ok b ∧ ∀ w : String,
        (∃ x y, accepts? ⟨.enfa, returning⟩ w = some x ∧ b.accepts? w = some y ∧
          (y = true → x = true)) ∧
        (accepts? ⟨.enfa, returning⟩ w = b.accepts? w ↔
          (returning.ReadsPast w.toList → returning.Reads w.toList)) :=
  have h : ofMachine .enfa returning = .ok ⟨.enfa, returning⟩ := rfl
  ⟨h, accepts?_eq_eliminated_iff h⟩

/-- The empty word is accepted before empty moves are eliminated and rejected after. -/
theorem returning_disagrees :
    ofMachine .enfa returning = .ok ⟨.enfa, returning⟩ ∧
      accepts? ⟨.enfa, returning⟩ "" = some true ∧
      (convert ⟨.enfa, returning⟩ .nfa).toOption.bind (·.accepts? "") = some false :=
  ⟨rfl, by decide +kernel, by decide +kernel⟩

/-- **What is accepted before and after elimination.** An automaton with empty moves accepts a word
exactly if some run that reads it ends where empty moves lead from a final state. It can always be
converted, and the result accepts a word exactly if some run of the original that reads it ends in a
final state. -/
theorem accepts?_iff_run_and_eliminated_iff_run {a : Automaton} (ha : ofMachine .enfa m = .ok a) :
    (∀ w : String, ∃ x, a.accepts? w = some x ∧
      (x = true ↔ ∃ p ∈ m.initial, ∃ q, m.Run p w.toList q ∧
        ∃ f ∈ m.finals, m.graph.EpsilonPath f q)) ∧
    ∃ b, a.convert .nfa = .ok b ∧ ∀ w : String, ∃ y, b.accepts? w = some y ∧
      (y = true ↔ ∃ p ∈ m.initial, ∃ q ∈ m.finals, m.Run p w.toList q) := by
  obtain ⟨hcheck, rfl⟩ := ofMachine_eq_ok.mp ha
  have hm := (check_eq_ok (by simp)).mp hcheck
  constructor
  · intro w
    obtain ⟨x, hx, hiff⟩ := accepts?_enfa hm w
    refine ⟨x, hx, hiff.trans ?_⟩
    constructor
    · rintro ⟨p, hp, f, hf, q, hrun, hpath⟩
      exact ⟨p, hp, q, hrun, f, hf, hpath⟩
    · rintro ⟨p, hp, q, hrun, f, hf, hpath⟩
      exact ⟨p, hp, f, hf, q, hrun, hpath⟩
  · obtain ⟨n, hn, helim, hnm⟩ := eliminated_eq_ok hm
    refine ⟨⟨.nfa, n⟩, by simp [convert, hn, Except.map], fun w => ?_⟩
    obtain ⟨y, hy, hiff⟩ := accepts?_nfa hnm w
    exact ⟨y, hy, hiff.trans (reads_of_eliminate? hm helim)⟩

/-- Three states, two of which empty moves lead around in a circle. The letter `a` leads from the
second to the third, which is final, and an empty move leads on from there to the first. -/
def circling : Machine where
  graph := ⟨#[⟨"p", .ofList [(.epsilon, 0), (.epsilon, 1)]⟩,
    ⟨"q", .ofList [(.epsilon, 0), (.letter 'a', 2), (.any, 1)]⟩, ⟨"r", .ofList [(.epsilon, 0)]⟩]⟩
  initial := [1, 0]
  finals := [2]
  alphabet := .ofList ['a']

theorem accepts?_iff_run_and_eliminated_iff_run_circling :
    ofMachine .enfa circling = .ok ⟨.enfa, circling⟩ ∧
      (∀ w : String, ∃ x, accepts? ⟨.enfa, circling⟩ w = some x ∧
        (x = true ↔ ∃ p ∈ circling.initial, ∃ q, circling.Run p w.toList q ∧
          ∃ f ∈ circling.finals, circling.graph.EpsilonPath f q)) ∧
      ∃ b, convert ⟨.enfa, circling⟩ .nfa = .ok b ∧ ∀ w : String, ∃ y, b.accepts? w = some y ∧
        (y = true ↔ ∃ p ∈ circling.initial, ∃ q ∈ circling.finals, circling.Run p w.toList q) :=
  have h : ofMachine .enfa circling = .ok ⟨.enfa, circling⟩ := rfl
  ⟨h, accepts?_iff_run_and_eliminated_iff_run h⟩

end Automaton

end Acceptor
