import Acceptor.Proofs.Inclusion
import Acceptor.Proofs.Reading

/-!
# Wildcard coverage makes walking agree with tracking

A walk takes the letter and leaves the wildcard edge beside it, tracking takes both. If at every
state the letters cover the wildcard edge, tracking never accepts more: whatever it reaches along a
wildcard accepts only words that the state on the walk accepts as well. If some letter does not
cover it, one word tells walking and tracking apart.

## Main results

* `Machine.coverage_eq_ok`: the check succeeds exactly if every inclusion it asks for holds.
* `Machine.readsFrom_iff_walksFrom`: in a covered machine, runs and walks accept the same words.
* `Machine.covers_of_coverage`: a machine that passes the check is covered.
* `Machine.covers_iff`: coverage is the agreement of runs and walks.
-/

namespace Acceptor

namespace Machine

variable {m : Machine} {p q r : Nat} {l : Label} {c : Char} {w : List Char} {s : State} {d : Defect}

/-! ### What the check asks for -/

theorem mem_rivals : (c, p, q) ∈ m.rivals s ↔ c ∈ m.alphabet ∧
    (s.edges.targets .any).head? = some p ∧ (s.edges.targets (.letter c)).head? = some q ∧
      q ≠ p := by
  rw [rivals]
  split
  · next h => simp [h]
  · next w ws h =>
    rw [h, List.mem_filterMap]
    constructor
    · rintro ⟨c', hc', hmatch⟩
      split at hmatch
      · cases hmatch
      · next r rs hr =>
        split at hmatch
        · cases hmatch
        · next hne =>
          cases hmatch
          exact ⟨hc', rfl, by simp [hr], hne⟩
    · rintro ⟨hc, hp, hq, hne⟩
      refine ⟨c, hc, ?_⟩
      obtain ⟨rs, hr⟩ := List.head?_eq_some_iff.mp hq
      obtain rfl : w = p := by simpa using hp
      simp [hr, hne]

/-- The pairs of targets that the check compares. -/
def rivalPairs (m : Machine) : List (Nat × Nat) :=
  (m.graph.states.toList.flatMap m.rivals).map Prod.snd

theorem mem_rivalPairs : (p, q) ∈ m.rivalPairs ↔
    ∃ s ∈ m.graph.states, ∃ c, (c, p, q) ∈ m.rivals s := by
  simp only [rivalPairs, List.mem_map, List.mem_flatMap, Array.mem_toList_iff]
  constructor
  · rintro ⟨⟨c, _⟩, ⟨s, hs, h⟩, rfl⟩
    exact ⟨s, hs, c, h⟩
  · rintro ⟨s, hs, c, h⟩
    exact ⟨(c, p, q), ⟨s, hs, h⟩, rfl⟩

theorem statePairs_rivalPairs (hconfined : m.graph.confined) : m.StatePairs m.rivalPairs := by
  rintro ⟨p, q⟩ h
  obtain ⟨s, hs, c, h⟩ := mem_rivalPairs.mp h
  obtain ⟨-, hp, hq, -⟩ := mem_rivals.mp h
  obtain ⟨i, hi⟩ := Array.getElem?_of_mem hs
  have hlt {l r} (hr : (s.edges.targets l).head? = some r) : r < m.size := by
    refine Graph.confined_iff.mp hconfined i l r ?_
    rw [Graph.targets_eq_of_getElem? hi]
    exact List.mem_of_mem_head? hr
  exact ⟨hlt hp, hlt hq⟩

theorem uncovered?_eq_some (h : m.uncovered? = some d) :
    ∃ s ∈ m.graph.states, ∃ c p q, (c, p, q) ∈ m.rivals s ∧ ¬m.included p q ∧
      d = .uncovered s.name c := by
  obtain ⟨s, hs, hd⟩ := List.exists_of_findSome?_eq_some h
  obtain ⟨c, hc, rfl⟩ := Option.map_eq_some_iff.mp hd
  obtain ⟨⟨c, p, q⟩, hfind, rfl⟩ := Option.map_eq_some_iff.mp hc
  have hnot : ¬m.included p q := by simpa using List.find?_some hfind
  exact ⟨s, Array.mem_toList_iff.mp hs, c, p, q, List.mem_of_find?_eq_some hfind, hnot, rfl⟩

theorem uncovered?_isSome (hs : s ∈ m.graph.states) (h : (c, p, q) ∈ m.rivals s)
    (hnot : ¬m.included p q) : m.uncovered?.isSome := by
  rw [uncovered?, List.findSome?_isSome_iff]
  refine ⟨s, Array.mem_toList_iff.mpr hs, ?_⟩
  rw [Option.isSome_map, uncoveredLetter?, Option.isSome_map, List.find?_isSome]
  exact ⟨(c, p, q), h, by simpa using hnot⟩

theorem coverage_eq_ok (hconfined : m.graph.confined) :
    m.coverage = .ok () ↔ m.allIncluded m.rivalPairs := by
  rw [coverage]
  split
  · next h => exact iff_of_true rfl h
  · next h =>
    refine iff_of_false (fun hok => h ?_) h
    split at hok
    · next hnone =>
      refine (allIncluded_iff_forall hconfined (statePairs_rivalPairs hconfined)).mpr ?_
      rintro ⟨p, q⟩ hpq
      obtain ⟨s, hs, c, hc⟩ := mem_rivalPairs.mp hpq
      refine Decidable.byContradiction fun hnot => ?_
      simpa [hnone] using uncovered?_isSome hs hc hnot
    · cases hok

theorem coverage_eq_error (h : m.coverage = .error d) : m.uncovered? = some d := by
  rw [coverage] at h
  split at h
  · cases h
  · split at h
    · cases h
    · next hd =>
      cases h
      exact hd

/-! ### Targets in deterministic automata -/

section Deterministic

variable (hm : m.Meets .dfa)

include hm

theorem Meets.targets_eq (hr : r ∈ m.graph.targets q l) : m.graph.targets q l = [r] := by
  obtain ⟨s, hs⟩ := exists_state (Graph.lt_size_of_mem_targets hr)
  have hlen : (m.graph.targets q l).length ≤ 1 :=
    Graph.targets_eq_of_getElem? hs l ▸ (hm.state hs).single rfl l
  cases htargets : m.graph.targets q l with
  | nil => simp [htargets] at hr
  | cons a as =>
    rw [htargets] at hr hlen
    obtain rfl : as = [] := List.length_eq_zero_iff.mp (by simpa using hlen)
    rw [List.mem_singleton.mp hr]

theorem follow?_letter (hr : r ∈ m.graph.targets q (.letter c)) :
    m.follow? q (.letter c) = some r := by
  rw [follow?, hm.targets_eq hr]
  rfl

end Deterministic

/-! ### Coverage of languages -/

/-- What the wildcard edge of a state leads to accepts no word that a letter beside it does not. -/
def Covers (m : Machine) : Prop :=
  ∀ q c p r, p ∈ m.graph.targets q .any → r ∈ m.graph.targets q (.letter c) →
    ∀ w, m.walksFrom p w → m.walksFrom r w

/-- The invariant of the comparison is the statement itself at every state: one character on,
coverage trades the wildcard target for the target of the letter. -/
theorem readsFrom_iff_walksFrom (hm : m.Meets .dfa) (hcovers : m.Covers) :
    m.ReadsFrom q w ↔ m.walksFrom q w := by
  have hepsilon := hm.no_epsilon (by simp)
  induction w generalizing q with
  | nil => rw [readsFrom_nil hepsilon, walksFrom_nil]
  | cons c w ih =>
    rw [readsFrom_cons hepsilon, walksFrom_cons]
    constructor
    · rintro ⟨r, hr, hreads⟩
      have hwalks := ih.mp hreads
      rw [Graph.step_eq, List.mem_append] at hr
      rcases hr with hr | hr
      · exact ⟨r, follow?_letter hm hr, hwalks⟩
      · by_cases hnil : m.graph.targets q (.letter c) = []
        · refine ⟨r, ?_, hwalks⟩
          rw [follow?, hnil, List.nil_append, hm.targets_eq hr]
          rfl
        · obtain ⟨r', hr'⟩ := List.exists_mem_of_ne_nil _ hnil
          exact ⟨r', follow?_letter hm hr', hcovers q c r r' hr hr' w hwalks⟩
    · rintro ⟨r, hr, hwalks⟩
      refine ⟨r, ?_, ih.mpr hwalks⟩
      rw [Graph.step_eq]
      exact List.mem_append.mpr (mem_targets_of_follow? hr)

/-- **Coverage is agreement.** -/
theorem covers_iff (hm : m.Meets .dfa) :
    m.Covers ↔ ∀ q < m.size, ∀ w, m.ReadsFrom q w ↔ m.walksFrom q w := by
  have hepsilon := hm.no_epsilon (by simp)
  refine ⟨fun h q _ w => readsFrom_iff_walksFrom hm h, fun h q c p r hp hr w hwalks => ?_⟩
  have hq : q < m.size := Graph.lt_size_of_mem_targets hp
  have hstep : p ∈ m.graph.step q c := Graph.mem_step.mpr ⟨.any, rfl, hp⟩
  have hreads : m.ReadsFrom q (c :: w) :=
    (readsFrom_cons hepsilon).mpr ⟨p, hstep, (h p (hm.target_lt q .any p hp) w).mpr hwalks⟩
  obtain ⟨r', hr', hwalks'⟩ := walksFrom_cons.mp ((h q hq (c :: w)).mp hreads)
  rw [follow?_letter hm hr] at hr'
  exact Option.some.inj hr' ▸ hwalks'

theorem mem_rivals_iff (hm : m.Meets .dfa) (hs : m.graph.states[q]? = some s) :
    (c, p, r) ∈ m.rivals s ↔
      m.graph.targets q .any = [p] ∧ m.graph.targets q (.letter c) = [r] ∧ r ≠ p := by
  have htargets := Graph.targets_eq_of_getElem? hs
  have hhead (l : Label) (x : Nat) :
      (s.edges.targets l).head? = some x ↔ m.graph.targets q l = [x] := by
    rw [← htargets]
    refine ⟨fun h => hm.targets_eq (List.mem_of_mem_head? h), fun h => by rw [h]; rfl⟩
  rw [mem_rivals, hhead, hhead]
  refine ⟨fun h => h.2, fun h => ⟨hm.letter_mem q c ?_, h⟩⟩
  rw [h.2.1]
  exact List.cons_ne_nil r []

/-- A machine that passes the check is covered: walks on a word take labels that the check follows,
whatever the alphabet. -/
theorem covers_of_coverage (hm : m.Meets .dfa) (h : m.coverage = .ok ()) : m.Covers := by
  intro q c p r hp hr w hwalks
  by_cases hrp : r = p
  · exact hrp ▸ hwalks
  rw [coverage_eq_ok hm.confined,
    allIncluded_iff hm.confined (statePairs_rivalPairs hm.confined)] at h
  obtain ⟨s, hs⟩ := exists_state (Graph.lt_size_of_mem_targets hp)
  have hrivals := (mem_rivals_iff hm hs).mpr ⟨hm.targets_eq hp, hm.targets_eq hr, hrp⟩
  have hmem : (p, r) ∈ m.rivalPairs :=
    mem_rivalPairs.mpr ⟨s, Array.mem_of_getElem? hs, c, hrivals⟩
  obtain ⟨f, hf, hfinal⟩ := walksFrom_iff.mp hwalks
  obtain ⟨f', hf', hfinal'⟩ := h _ ((PairReached.start hmem).walk hm hf) hfinal
  exact walksFrom_iff.mpr ⟨f', hf', hfinal'⟩

/-- The check asks for inclusions of languages, if some character is outside the alphabet. -/
theorem coverage_eq_ok_iff (hm : m.Meets .dfa) (hmiss : ∃ c, c ∉ m.alphabet) :
    m.coverage = .ok () ↔ m.Covers := by
  have hpairs := statePairs_rivalPairs hm.confined
  refine ⟨covers_of_coverage hm, fun h => ?_⟩
  rw [coverage_eq_ok hm.confined, allIncluded_iff_forall hm.confined hpairs]
  rintro ⟨p, r⟩ hmem
  obtain ⟨s, hs, c, hrivals⟩ := mem_rivalPairs.mp hmem
  obtain ⟨q, hq⟩ := Array.getElem?_of_mem hs
  obtain ⟨hp, hr, -⟩ := (mem_rivals_iff hm hq).mp hrivals
  refine (included_iff hm hmiss (hpairs _ hmem).1 (hpairs _ hmem).2).mpr ?_
  exact h q c p r (by simp [hp]) (by simp [hr])

/-- A refusal names a state and a letter for which one word breaks the inclusion. -/
theorem exists_of_coverage_eq_error (hm : m.Meets .dfa) (hmiss : ∃ c, c ∉ m.alphabet)
    (h : m.coverage = .error d) :
    ∃ q s c p r w, m.graph.states[q]? = some s ∧ c ∈ m.alphabet ∧ d = .uncovered s.name c ∧
      m.graph.targets q .any = [p] ∧ m.graph.targets q (.letter c) = [r] ∧
      m.walksFrom p w = true ∧ m.walksFrom r w = false := by
  obtain ⟨s, hs, c, p, r, hrivals, hnot, rfl⟩ := uncovered?_eq_some (coverage_eq_error h)
  obtain ⟨q, hq⟩ := Array.getElem?_of_mem hs
  have hmem := statePairs_rivalPairs hm.confined _ (mem_rivalPairs.mpr ⟨s, hs, c, hrivals⟩)
  rw [included_iff hm hmiss hmem.1 hmem.2] at hnot
  simp only [Classical.not_forall, Bool.not_eq_true] at hnot
  obtain ⟨w, hp, hr⟩ := hnot
  obtain ⟨hany, hletter, -⟩ := (mem_rivals_iff hm hq).mp hrivals
  exact ⟨q, s, c, p, r, w, hq, (mem_rivals.mp hrivals).1, rfl, hany, hletter, hp, hr⟩

/-- Tracking from one state accepts what walking from it does. -/
theorem tracksFrom?_single (hm : m.Meets .dfa) (hq : q < m.size) :
    (∀ w, m.tracksFrom? (.ofList [q]) w = some (m.walksFrom q w)) ↔
      ∀ w, m.ReadsFrom q w ↔ m.walksFrom q w := by
  refine forall_congr' fun w => ?_
  have hs : ∀ p ∈ IdSet.ofList [q], p < m.size := by simpa using hq
  obtain ⟨b, hb, hiff⟩ := tracksFrom?_spec (hm.no_epsilon (by simp)) hm.confined hs w
  have hone : b = true ↔ m.ReadsFrom q w := by simpa using hiff
  rw [hb, Option.some_inj, Bool.eq_iff_iff, hone]

end Machine

namespace Automaton

open Machine

variable {m : Machine}

/-- **The coverage check is exact.** A machine with the shape of a deterministic automaton is
refused exactly if walking and tracking disagree somewhere, and the refusal names a place where a
wildcard edge leads to a word that the letter beside it does not. -/
theorem ofMachine_dfa_iff_walks_eq_tracks (hvalid : m.validate .dfa = .ok ())
    (hmiss : ∃ c, c ∉ m.alphabet) :
    (ofMachine .dfa m = .ok ⟨.dfa, m⟩ ↔
      ∀ q < m.size, ∀ w, m.tracksFrom? (.ofList [q]) w = some (m.walksFrom q w)) ∧
    ∀ d, ofMachine .dfa m = .error d →
      ∃ q s c p r w, m.graph.states[q]? = some s ∧ c ∈ m.alphabet ∧ d = .uncovered s.name c ∧
        m.graph.targets q .any = [p] ∧ m.graph.targets q (.letter c) = [r] ∧
        m.walksFrom p w = true ∧ m.walksFrom r w = false := by
  have hm := validate_eq_ok_iff.mp hvalid
  constructor
  · rw [ofMachine_eq_ok, check_dfa_eq_ok, coverage_eq_ok_iff hm hmiss, covers_iff hm]
    simp only [hm, true_and, and_true]
    exact forall₂_congr fun q hq => (tracksFrom?_single hm hq).symm
  · intro d hd
    exact exists_of_coverage_eq_error hm hmiss (ofMachine_dfa_eq_error hvalid hd)

/-- Three states with the letter `a`. From the first the wildcard leads to the final state and the
letter to one from which nothing is accepted. -/
def narrow : Machine where
  graph := ⟨#[⟨"p", .ofList [(.letter 'a', 1), (.any, 2)]⟩,
    ⟨"q", .ofList [(.letter 'a', 1), (.any, 1)]⟩, ⟨"r", .ofList [(.letter 'a', 2), (.any, 2)]⟩]⟩
  initial := [0]
  finals := [2]
  alphabet := .ofList ['a']

theorem ofMachine_dfa_iff_walks_eq_tracks_narrow :
    narrow.validate .dfa = .ok () ∧ 'b' ∉ narrow.alphabet ∧
      ofMachine .dfa narrow = .error (.uncovered "p" 'a') ∧
      (ofMachine .dfa narrow = .ok ⟨.dfa, narrow⟩ ↔
        ∀ q < narrow.size, ∀ w,
          narrow.tracksFrom? (.ofList [q]) w = some (narrow.walksFrom q w)) ∧
      ∃ q s c p r w, narrow.graph.states[q]? = some s ∧ c ∈ narrow.alphabet ∧
        Defect.uncovered "p" 'a' = .uncovered s.name c ∧
        narrow.graph.targets q .any = [p] ∧ narrow.graph.targets q (.letter c) = [r] ∧
        narrow.walksFrom p w = true ∧ narrow.walksFrom r w = false :=
  have hvalid : narrow.validate .dfa = .ok () := rfl
  have hmiss : 'b' ∉ narrow.alphabet := by decide
  have hsearch : narrow.allIncluded narrow.rivalPairs = false := by decide +kernel
  have hfirst : narrow.uncovered? = some (.uncovered "p" 'a') := by decide +kernel
  have hrefused : ofMachine .dfa narrow = .error (.uncovered "p" 'a') := by
    rw [ofMachine, check, hvalid, coverage, ← rivalPairs, hsearch, hfirst]
    rfl
  have hexact := ofMachine_dfa_iff_walks_eq_tracks hvalid ⟨'b', hmiss⟩
  ⟨hvalid, hmiss, hrefused, hexact.1, hexact.2 _ hrefused⟩

end Automaton

end Acceptor
