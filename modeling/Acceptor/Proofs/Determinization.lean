import Acceptor.Proofs.Accessible
import Acceptor.Proofs.Coverage
import Acceptor.Proofs.Subsets

/-!
# Determinization keeps the language

The machine of the sets passes its own check: the wildcard of a set leads to a part of what each
letter leads to, and from a part of a set nothing is accepted that the set does not accept. So
determinization never fails, and its result accepts the words that runs of the original read.

## Main results

* `Machine.coverage_ofSubsets`: the machine of the sets is covered, whatever the alphabet.
* `Automaton.determinized_eq_ok`: determinization succeeds and accepts the language.

## Implementation notes

Coverage is shown on pairs of sets and not on languages. If every character is in the alphabet, the
wildcard stands for no character, and the check compares more than words can tell apart.
-/

namespace Acceptor

namespace Machine

variable {m : Machine} {k : Kind} {r i : Nat} {b : Option Nat} {l : Label} {w : List Char}
  {sets : List IdSet}

/-! ### Coverage of the machine of the sets -/

/-- The places of two sets, the second of which contains the first. -/
def Below (sets : List IdSet) (i : Nat) (j : Option Nat) : Prop :=
  ∃ s t, sets[i]? = some s ∧ j.bind (sets[·]?) = some t ∧ ∀ q ∈ s, q ∈ t

theorem below_rivalPairs (hsets : m.Subsets sets) {p q : Nat}
    (h : (p, q) ∈ (m.ofSubsets sets).rivalPairs) : Below sets p (some q) := by
  obtain ⟨s, hs, c, hc⟩ := mem_rivalPairs.mp h
  obtain ⟨i, hi⟩ := Array.getElem?_of_mem hs
  obtain ⟨hp, hq, -⟩ := (mem_rivals_iff (meets_ofSubsets hsets) hi).mp hc
  obtain ⟨u, hu, hany, rfl⟩ := mem_targets_ofSubsets (List.mem_of_mem_head? (by rw [hp]; rfl))
  obtain ⟨u', hu', hletter, rfl⟩ := mem_targets_ofSubsets (List.mem_of_mem_head? (by rw [hq]; rfl))
  obtain rfl := Option.some.inj (hu.symm.trans hu')
  exact ⟨m.move u .any, m.move u (.letter c), getElem?_idxOf_move hsets hu hany,
    getElem?_idxOf_move hsets hu hletter, move_any_subset m u c⟩

/-- The invariant of the search over pairs: one label on, the second set still contains the first,
and its walk has not ended. -/
theorem below_step (hsets : m.Subsets sets) (h : Below sets i b)
    (hl : l ∈ (m.ofSubsets sets).walkLabels) (hr : (m.ofSubsets sets).follow? i l = some r) :
    Below sets r (b.bind ((m.ofSubsets sets).follow? · l)) := by
  obtain ⟨s, t, hs, ht, hsub⟩ := h
  obtain ⟨j, rfl, ht⟩ := Option.bind_eq_some_iff.mp ht
  have hlabel : l ∈ m.readLabels := by
    refine Decidable.byContradiction fun hnot => ?_
    rcases mem_walkLabels.mp hl with ⟨c, hc, rfl⟩ | rfl
    · exact hnot (letter_mem_readLabels.mpr hc)
    · simp [follow?_ofSubsets_eq_none hs hnot hnot] at hr
  rw [follow?_ofSubsets hs hlabel] at hr
  obtain rfl := Option.some.inj hr
  refine ⟨m.move s l, m.move t l, getElem?_idxOf_move hsets hs hlabel, ?_, move_mono hsub⟩
  rw [Option.bind_some, follow?_ofSubsets ht hlabel, Option.bind_some]
  exact getElem?_idxOf_move hsets ht hlabel

theorem coverage_ofSubsets (hsets : m.Subsets sets) : (m.ofSubsets sets).coverage = .ok () := by
  have hconfined := (meets_ofSubsets hsets).confined
  rw [coverage_eq_ok hconfined, allIncluded_iff hconfined (statePairs_rivalPairs hconfined)]
  intro x hx hfinal
  obtain ⟨s, t, hs, ht, hsub⟩ : Below sets x.1 x.2 :=
    PairReached.induct (fun _ h => below_rivalPairs hsets h)
      (fun _ _ _ _ h hl hr => below_step hsets h hl hr) hx
  obtain ⟨j, hj, ht⟩ := Option.bind_eq_some_iff.mp ht
  obtain ⟨s', hs', q, hq, hqf⟩ := mem_finals_ofSubsets.mp hfinal
  obtain rfl := Option.some.inj (hs.symm.trans hs')
  exact ⟨j, hj, mem_finals_ofSubsets.mpr ⟨t, ht, q, hsub q hq, hqf⟩⟩

/-! ### The language of the result -/

theorem walks?_eq {q : Nat} (h : m.initial = [q]) : m.walks? w = some (m.walksFrom q w) := by
  simp [walks?, h]

/-- Restricted to its accessible part, the machine of the sets accepts the language. -/
theorem exists_accessible_ofSubsets (hm : m.Meets .nfa) (hsets : m.Subsets sets) :
    ∃ n, (m.ofSubsets sets).accessible? = some n ∧
      ∀ w, ∃ b, n.walks? w = some b ∧ (b = true ↔ m.Reads w) := by
  have hdfa := meets_ofSubsets hsets
  obtain ⟨kept, hkept, -, hmem⟩ := accessible?_eq_some hdfa
  refine ⟨_, hkept, fun w => ⟨(m.ofSubsets sets).walksFrom 0 w, ?_, ?_⟩⟩
  · have hinitial : ∀ q ∈ (m.ofSubsets sets).initial, q ∈ kept := fun q hq =>
      (hmem q).mpr (.initial hq)
    rw [walks?_restrict (closed_of_accessible hdfa hmem) hinitial, walks?_eq initial_ofSubsets]
  · rw [walksFrom_ofSubsets hm hsets hsets.first, reads_iff]

end Machine

namespace Automaton

open Machine

variable {m n d : Machine} {a : Automaton}

/-- The machine of the sets passes the check, and its accessible part is what determinization
gives. -/
theorem determinized_of_subsets {sets : List IdSet} (hm : m.Meets .nfa)
    (hsome : m.subsets? = some sets) (hsets : m.Subsets sets) :
    determinized m = found (m.ofSubsets sets).accessible? := by
  have hcheck : (m.ofSubsets sets).check .dfa = .ok () :=
    check_dfa_eq_ok.mpr ⟨meets_ofSubsets hsets, coverage_ofSubsets hsets⟩
  rw [determinized, determinize?_eq fun q hq => .inl (hm.final_lt q hq), hsome]
  simp [found, checked_eq_ok.mpr ⟨hcheck, rfl⟩, bind, Except.bind]

/-- Determinization succeeds and accepts the language. -/
theorem determinized_eq_ok (hm : m.Meets .nfa) :
    ∃ n, determinized m = .ok n ∧
      ∀ w, ∃ b, accepts? ⟨.dfa, n⟩ w = some b ∧ (b = true ↔ m.Reads w.toList) := by
  obtain ⟨sets, hsome, hsets⟩ := exists_subsets hm.initial_lt hm.confined
  obtain ⟨n, hn, hlanguage⟩ := exists_accessible_ofSubsets hm hsets
  exact ⟨n, by rw [determinized_of_subsets hm hsome hsets, hn, found],
    fun w => hlanguage w.toList⟩

theorem convert_nfa_dfa (h : determinized m = .ok d) : convert ⟨.nfa, m⟩ .dfa = .ok ⟨.dfa, d⟩ := by
  simp [convert, h, Except.map]

theorem convert_enfa_dfa (h : eliminated m = .ok n) (h' : determinized n = .ok d) :
    convert ⟨.enfa, m⟩ .dfa = .ok ⟨.dfa, d⟩ := by
  simp [convert, h, h', bind, Except.bind, Except.map]

/-- **Determinization keeps the language.** An automaton without empty moves can be determinized,
and before and after it accepts the words that a run from an initial to a final state reads. -/
theorem accepts?_determinized_eq (ha : ofMachine .nfa m = .ok a) :
    ∃ d, a.convert .dfa = .ok d ∧ ∀ w : String, ∃ b,
      a.accepts? w = some b ∧ d.accepts? w = some b ∧ (b = true ↔ m.Reads w.toList) := by
  obtain ⟨hcheck, rfl⟩ := ofMachine_eq_ok.mp ha
  have hm := (check_eq_ok (by simp)).mp hcheck
  obtain ⟨n, hn, hlanguage⟩ := determinized_eq_ok hm
  refine ⟨⟨.dfa, n⟩, by simp [convert, hn, Except.map], fun w => ?_⟩
  obtain ⟨b, hb, hiff⟩ := accepts?_nfa hm w
  obtain ⟨b', hb', hiff'⟩ := hlanguage w
  have heq : b' = b := Bool.eq_iff_iff.mpr (hiff'.trans hiff.symm)
  exact ⟨b, hb, heq ▸ hb', hiff⟩

/-- Two states with the letter `a`, both initial. The first stays with every character, and with
`a` it may also move on to the second, which is final and ends with the first character. -/
def guessing : Machine where
  graph := ⟨#[⟨"p", .ofList [(.letter 'a', 0), (.letter 'a', 1), (.any, 0)]⟩, ⟨"q", ∅⟩]⟩
  initial := [0, 1]
  finals := [1]
  alphabet := .ofList ['a']

theorem accepts?_determinized_eq_guessing :
    ofMachine .nfa guessing = .ok ⟨.nfa, guessing⟩ ∧
      ∃ d, convert ⟨.nfa, guessing⟩ .dfa = .ok d ∧ ∀ w : String, ∃ b,
        accepts? ⟨.nfa, guessing⟩ w = some b ∧ d.accepts? w = some b ∧
          (b = true ↔ guessing.Reads w.toList) :=
  have h : ofMachine .nfa guessing = .ok ⟨.nfa, guessing⟩ := rfl
  ⟨h, accepts?_determinized_eq h⟩

end Automaton

end Acceptor
