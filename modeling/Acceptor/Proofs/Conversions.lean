import Acceptor.Automaton.Changes
import Acceptor.Outcome
import Acceptor.Proofs.PatternLanguage
import Acceptor.Proofs.Restriction

/-!
# Automata through any changes

Every change of an automaton that passes its check succeeds, and the result passes its check again.
It has the same runs, up to the words they read. What it accepts may still differ, since acceptance
with empty moves also looks behind the final states; but if nothing behind a final state adds a
word, this stays so, and then every automaton that comes of the first accepts the same words.

## Main results

* `Automaton.exists_apply`: one change succeeds and keeps the check and the language.
* `Automaton.exists_changed`: so does every sequence of changes.
* `Automaton.accepts?_changed_eq`: answers are the same before and after.
* `Automaton.changed_sound`: nothing that is asked of a changed automaton fails.
-/

namespace Acceptor

namespace Machine

variable {m : Machine} {w : List Char}

/-- Without empty moves there is nothing behind a final state but itself. -/
theorem reads_of_readsPast (hepsilon : ∀ q, m.graph.targets q .epsilon = [])
    (h : m.ReadsPast w) : m.Reads w := by
  refine (readsPast_iff fun f hf q hpath => ?_).mp h
  obtain rfl := hpath.eq_of_targets (hepsilon f)
  exact ⟨f, hf, .refl f⟩

/-- In a deterministic automaton the runs read what the walk accepts. -/
theorem reads_iff_walksFrom (h : m.check .dfa = .ok ()) {q : Nat} (hq : m.initial = [q]) :
    m.Reads w ↔ m.walksFrom q w := by
  obtain ⟨hm, hcoverage⟩ := Automaton.check_dfa_eq_ok.mp h
  rw [← readsFrom_iff_walksFrom hm (covers_of_coverage hm hcoverage), reads_iff]
  simp [hq]

end Machine

namespace Automaton

open Machine

variable {a b c : Automaton} {k : Kind} {m : Machine} {x : Change} {xs : List Change}

/-! ### Automata that pass their check -/

/-- The machine passes the check of its kind. -/
def Valid (a : Automaton) : Prop := a.machine.check a.kind = .ok ()

/-- No word is accepted only for an end behind a final state. -/
def Exact (a : Automaton) : Prop := ∀ w, a.machine.ReadsPast w → a.machine.Reads w

theorem Valid.meets (h : a.Valid) : a.machine.Meets a.kind := by
  by_cases hk : a.kind = .dfa
  · rw [Valid, hk] at h
    rw [hk]
    exact (check_dfa_eq_ok.mp h).1
  · exact (check_eq_ok hk).mp h

theorem Valid.exact (h : a.Valid) (hk : a.kind ≠ .enfa) : a.Exact := fun _ =>
  reads_of_readsPast (h.meets.no_epsilon hk)

theorem exists_initial (h : m.Meets .dfa) : ∃ q, m.initial = [q] ∧ q < m.size := by
  obtain ⟨q, hq⟩ := List.length_eq_one_iff.mp (h.initial_single rfl)
  exact ⟨q, hq, h.initial_lt q (by simp [hq])⟩

theorem accepts?_dfa (h : m.check .dfa = .ok ()) (w : String) :
    ∃ b, accepts? ⟨.dfa, m⟩ w = some b ∧ (b = true ↔ m.Reads w.toList) := by
  obtain ⟨q, hq, -⟩ := exists_initial (check_dfa_eq_ok.mp h).1
  exact ⟨_, walks?_eq hq, (reads_iff_walksFrom h hq).symm⟩

/-- Reading a word never comes to an id that is no state. -/
theorem Valid.exists_accepts? (h : a.Valid) (w : String) : ∃ b, a.accepts? w = some b := by
  obtain ⟨_ | _ | _, m⟩ := a
  · obtain ⟨b, hb, -⟩ := accepts?_dfa h w
    exact ⟨b, hb⟩
  · obtain ⟨b, hb, -⟩ := accepts?_nfa h.meets w
    exact ⟨b, hb⟩
  · obtain ⟨b, hb, -⟩ := accepts?_enfa h.meets w
    exact ⟨b, hb⟩

/-- An automaton that accepts nothing behind its final states accepts what its runs read. -/
theorem Valid.accepts? (h : a.Valid) (he : a.Exact) (w : String) :
    ∃ b, a.accepts? w = some b ∧ (b = true ↔ a.machine.Reads w.toList) := by
  obtain ⟨_ | _ | _, m⟩ := a
  · exact accepts?_dfa h w
  · exact accepts?_nfa h.meets w
  · obtain ⟨b, hb, hiff⟩ := accepts?_enfa h.meets w
    exact ⟨b, hb, hiff.trans ⟨he _, Reads.readsPast⟩⟩

/-! ### What changes keep -/

/-- What an automaton keeps of the one it comes of. -/
structure Keeps (a b : Automaton) : Prop where
  /-- It passes its check. -/
  valid : b.Valid
  /-- Its runs read the same words. -/
  reads : ∀ w, b.machine.Reads w ↔ a.machine.Reads w
  /-- It accepts nothing behind its final states if the other does not. -/
  exact : a.Exact → b.Exact

theorem Keeps.trans (h : a.Keeps b) (h' : b.Keeps c) : a.Keeps c :=
  ⟨h'.valid, fun w => (h'.reads w).trans (h.reads w), fun he => h'.exact (h.exact he)⟩

/-- What keeps the language keeps the answers, where nothing is accepted behind the final states. -/
theorem Keeps.accepts?_eq (h : a.Keeps b) (ha : a.Valid) (he : a.Exact) (w : String) :
    ∃ x, a.accepts? w = some x ∧ b.accepts? w = some x := by
  obtain ⟨x, hx, hiff⟩ := ha.accepts? he w
  obtain ⟨y, hy, hiff'⟩ := h.valid.accepts? (h.exact he) w
  obtain rfl : y = x := Bool.eq_iff_iff.mpr (hiff'.trans ((h.reads _).trans hiff.symm))
  exact ⟨y, hx, hy⟩

/-- Without a new machine there is only the check to look at. -/
theorem keeps_of_check (h : m.check k = .ok ()) (k' : Kind) : Keeps ⟨k', m⟩ ⟨k, m⟩ :=
  ⟨h, fun _ => .rfl, id⟩

theorem exists_eliminated (hm : m.Meets .enfa) :
    ∃ n, eliminated m = .ok n ∧ Keeps ⟨.enfa, m⟩ ⟨.nfa, n⟩ := by
  obtain ⟨n, hn, helim, hmeets⟩ := eliminated_eq_ok hm
  have hvalid : Valid ⟨.nfa, n⟩ := (check_eq_ok (by simp)).mpr hmeets
  exact ⟨n, hn, hvalid, fun w => reads_of_eliminate? hm helim, fun _ => hvalid.exact (by simp)⟩

/-- The machine of the sets passes its check before its accessible part is taken, which keeps the
check. -/
theorem check_of_determinized {n : Machine} (h : determinized m = .ok n) :
    n.check .dfa = .ok () := by
  obtain ⟨s, hs, hn⟩ := bind_eq_ok.mp h
  obtain ⟨t, -, hchecked⟩ := bind_eq_ok.mp hs
  obtain ⟨hcheck, rfl⟩ := checked_eq_ok.mp hchecked
  obtain ⟨n', hn', hcheck', -⟩ := accessible?_dfa hcheck
  obtain rfl : n' = n := by simpa [hn', found] using hn
  exact hcheck'

theorem exists_determinized (hm : m.Meets .nfa) :
    ∃ n, determinized m = .ok n ∧ Keeps ⟨.nfa, m⟩ ⟨.dfa, n⟩ := by
  obtain ⟨n, hn, hlanguage⟩ := determinized_eq_ok hm
  have hvalid : Valid ⟨.dfa, n⟩ := check_of_determinized hn
  refine ⟨n, hn, hvalid, fun w => ?_, fun _ => hvalid.exact (by simp)⟩
  -- both machines read what the new one accepts
  obtain ⟨x, hx, hiff⟩ := hlanguage (.ofList w)
  obtain ⟨y, hy, hiff'⟩ := accepts?_dfa hvalid (.ofList w)
  obtain rfl : x = y := Option.some.inj (hx.symm.trans hy)
  rw [String.toList_ofList] at hiff hiff'
  exact hiff'.symm.trans hiff

theorem exists_accessible (h : a.Valid) (hk : a.kind = .dfa) :
    ∃ b, a.accessible = .ok b ∧ b.kind = .dfa ∧ a.Keeps b := by
  obtain ⟨_, m⟩ := a
  obtain rfl := hk
  obtain ⟨n, hn, hcheck, hwalks⟩ := accessible?_dfa h
  have hvalid : Valid ⟨.dfa, n⟩ := hcheck
  refine ⟨⟨.dfa, n⟩, ?_, rfl, hvalid, fun w => ?_, fun _ => hvalid.exact (by simp)⟩
  · simp [accessible, hn, found, Except.map]
  · obtain ⟨q, hq, -⟩ := exists_initial (check_dfa_eq_ok.mp h).1
    obtain ⟨r, hr, -⟩ := exists_initial (check_dfa_eq_ok.mp hcheck).1
    have heq : n.walksFrom r w = m.walksFrom q w := by
      simpa [walks?_eq hq, walks?_eq hr] using hwalks w
    rw [reads_iff_walksFrom h hq, reads_iff_walksFrom hcheck hr, heq]

/-- Every automaton that passes its check can be converted to every kind. -/
theorem exists_convert (h : a.Valid) (k : Kind) :
    ∃ b, a.convert k = .ok b ∧ b.kind = k ∧ a.Keeps b := by
  have hm := h.meets
  obtain ⟨kind, m⟩ := a
  have hkeep (h' : m.check k = .ok ()) : Keeps ⟨kind, m⟩ ⟨k, m⟩ := keeps_of_check h' kind
  cases kind with
  | dfa =>
    refine ⟨⟨k, m⟩, by cases k <;> rfl, rfl, hkeep ?_⟩
    cases k with
    | dfa => exact h
    | nfa => exact (check_eq_ok (by simp)).mpr hm.nfa
    | enfa => exact (check_eq_ok (by simp)).mpr hm.enfa
  | nfa =>
    cases k with
    | dfa =>
      obtain ⟨n, hn, hkeeps⟩ := exists_determinized hm
      exact ⟨⟨.dfa, n⟩, by simp [convert, hn, Except.map], rfl, hkeeps⟩
    | nfa => exact ⟨_, rfl, rfl, hkeep h⟩
    | enfa => exact ⟨_, rfl, rfl, hkeep ((check_eq_ok (by simp)).mpr hm.enfa)⟩
  | enfa =>
    cases k with
    | dfa =>
      obtain ⟨n, hn, hkeeps⟩ := exists_eliminated hm
      obtain ⟨d, hd, hkeeps'⟩ := exists_determinized hkeeps.valid.meets
      refine ⟨⟨.dfa, d⟩, ?_, rfl, hkeeps.trans hkeeps'⟩
      simp [convert, hn, hd, bind, Except.bind, Except.map]
    | nfa =>
      obtain ⟨n, hn, hkeeps⟩ := exists_eliminated hm
      exact ⟨⟨.nfa, n⟩, by simp [convert, hn, Except.map], rfl, hkeeps⟩
    | enfa => exact ⟨_, rfl, rfl, hkeep h⟩

/-- One change. -/
theorem exists_apply (h : a.Valid) (hx : x.Applies a.kind) :
    ∃ b, x.apply a = .ok b ∧ b.kind = x.kindAfter a.kind ∧ a.Keeps b := by
  cases x with
  | convert k => exact exists_convert h k
  | accessible =>
    obtain ⟨b, hb, hkind, hkeeps⟩ := exists_accessible h hx
    exact ⟨b, hb, hkind.trans hx.symm, hkeeps⟩

/-- Any number of changes. -/
theorem exists_changed (h : a.Valid) (hxs : Change.AllApply a.kind xs) :
    ∃ b, a.changed xs = .ok b ∧ a.Keeps b := by
  induction xs generalizing a with
  | nil => exact ⟨a, rfl, h, fun _ => .rfl, id⟩
  | cons x xs ih =>
    obtain ⟨hx, hxs⟩ := hxs
    obtain ⟨b, hb, hkind, hkeeps⟩ := exists_apply h hx
    obtain ⟨c, hc, hkeeps'⟩ := ih hkeeps.valid (hkind ▸ hxs)
    refine ⟨c, ?_, hkeeps.trans hkeeps'⟩
    rw [changed, List.foldlM_cons, hb]
    exact hc

/-! ### Where automata come from -/

theorem Made.valid (h : Made k a) : a.Valid ∧ a.kind = k := by
  obtain ⟨m, hm⟩ := h
  obtain ⟨hcheck, rfl⟩ := ofMachine_eq_ok.mp hm
  exact ⟨hcheck, rfl⟩

/-- Every pattern in text compiles, to an automaton whose runs read the words of the pattern and
that accepts nothing behind its final states. -/
theorem exists_ofPattern {s : String} {p : Pattern} (hparse : Pattern.parse s = .ok p) (k : Kind) :
    ∃ a, ofPattern k p = .ok a ∧ a.Valid ∧ a.Exact ∧
      ∀ w, a.machine.Reads w ↔ p.Matches w := by
  have hlabels := Pattern.label_ne_epsilon_of_parse hparse
  have hvalid : Valid ⟨.enfa, p.machine⟩ := (check_eq_ok (by simp)).mpr p.meets_machine
  have hexact : Exact ⟨.enfa, p.machine⟩ := fun _ hpast =>
    (Pattern.reads_machine hlabels).mpr ((Pattern.readsPast_machine hlabels).mp hpast)
  obtain ⟨a, ha, -, hkeeps⟩ := exists_convert hvalid k
  refine ⟨a, ?_, hkeeps.valid, hkeeps.exact hexact, fun w => ?_⟩
  · rw [ofPattern, checked_machine]
    exact ha
  · exact (hkeeps.reads w).trans (Pattern.reads_machine hlabels)

theorem Compiled.valid_and_exact (h : a.Compiled) : a.Valid ∧ a.Exact := by
  obtain ⟨s, p, k, hparse, ha⟩ := h
  obtain ⟨a', ha', hvalid, hexact, -⟩ := exists_ofPattern hparse k
  obtain rfl : a' = a := Except.ok.inj (ha'.symm.trans ha)
  exact ⟨hvalid, hexact⟩

/-! ### Any sequence of changes -/

/-- **Changes keep the answers.** Every pattern in text compiles to every kind. An automaton that is
compiled from a pattern, or made of a machine without empty moves, goes through any changes without
a failure and accepts the same words after them. -/
theorem accepts?_changed_eq :
    (∀ s p k, Pattern.parse s = .ok p → ∃ a, ofPattern k p = .ok a) ∧
    ∀ a : Automaton, a.Compiled ∨ Made .dfa a ∨ Made .nfa a →
      ∀ xs, Change.AllApply a.kind xs → ∃ b, a.changed xs = .ok b ∧
        ∀ w, ∃ x, a.accepts? w = some x ∧ b.accepts? w = some x := by
  refine ⟨fun s p k hparse => ?_, fun a ha xs hxs => ?_⟩
  · obtain ⟨a, ha, -⟩ := exists_ofPattern hparse k
    exact ⟨a, ha⟩
  · have hmade {k : Kind} (hk : k ≠ .enfa) (h : Made k a) : a.Valid ∧ a.Exact :=
      ⟨h.valid.1, h.valid.1.exact (h.valid.2 ▸ hk)⟩
    obtain ⟨hvalid, hexact⟩ : a.Valid ∧ a.Exact := by
      rcases ha with h | h | h
      · exact h.valid_and_exact
      · exact hmade (by simp) h
      · exact hmade (by simp) h
    obtain ⟨b, hb, hkeeps⟩ := exists_changed hvalid hxs
    refine ⟨b, hb, fun w => ?_⟩
    obtain ⟨x, hx, hiff⟩ := hvalid.accepts? hexact w
    obtain ⟨y, hy, hiff'⟩ := hkeeps.valid.accepts? (hkeeps.exact hexact) w
    have heq : y = x := Bool.eq_iff_iff.mpr (hiff'.trans ((hkeeps.reads _).trans hiff.symm))
    exact ⟨x, hx, heq ▸ hy⟩

/-- Two states with the letter `a`, which leads from both to the second. All other characters lead
from both to the first. The second is final, so words that end in `a` are accepted. -/
def trailing : Machine where
  graph := ⟨#[⟨"p", .ofList [(.letter 'a', 1), (.any, 0)]⟩,
    ⟨"q", .ofList [(.any, 0), (.letter 'a', 1)]⟩]⟩
  initial := [0]
  finals := [1]
  alphabet := .ofList ['a']

theorem accepts?_changed_eq_trailing :
    (Pattern.parse ".*a" = .ok ⟨[⟨.any, .many⟩, ⟨.letter 'a', .one⟩]⟩ ∧
      ∃ a, ofPattern .nfa ⟨[⟨.any, .many⟩, ⟨.letter 'a', .one⟩]⟩ = .ok a) ∧
    ofMachine .dfa trailing = .ok ⟨.dfa, trailing⟩ ∧
    Change.AllApply .dfa
      [.convert .nfa, .convert .dfa, .accessible, .convert .enfa, .convert .dfa] ∧
    ∃ b, changed ⟨.dfa, trailing⟩
        [.convert .nfa, .convert .dfa, .accessible, .convert .enfa, .convert .dfa] = .ok b ∧
      ∀ w, ∃ x, accepts? ⟨.dfa, trailing⟩ w = some x ∧ b.accepts? w = some x :=
  have hparse : Pattern.parse ".*a" = .ok ⟨[⟨.any, .many⟩, ⟨.letter 'a', .one⟩]⟩ := rfl
  have hmade : ofMachine .dfa trailing = .ok ⟨.dfa, trailing⟩ :=
    ofMachine_eq_ok.mpr ⟨by decide +kernel, rfl⟩
  have happly : Change.AllApply .dfa
      [.convert .nfa, .convert .dfa, .accessible, .convert .enfa, .convert .dfa] :=
    ⟨trivial, trivial, rfl, trivial, trivial, trivial⟩
  ⟨⟨hparse, accepts?_changed_eq.1 _ _ .nfa hparse⟩, hmade, happly,
    accepts?_changed_eq.2 _ (.inr (.inl ⟨trailing, hmade⟩)) _ happly⟩

/-- **Nothing fails after changes.** An automaton of any origin goes through any changes without a
failure. After them its machine meets the demands of its kind and passes the check for a
deterministic automaton if it is one; it can be converted to every kind and reads every word; and if
it is deterministic, it has an accessible part and an initial state, and single steps lead from
states to states. -/
theorem changed_sound (ha : a.Compiled ∨ ∃ k, Made k a) (hxs : Change.AllApply a.kind xs) :
    ∃ b, a.changed xs = .ok b ∧ b.machine.validate b.kind = .ok () ∧
      (b.kind = .dfa → ofMachine .dfa b.machine = .ok b) ∧
      (∀ k, ∃ c, b.convert k = .ok c) ∧ (∀ w, ∃ x, b.accepts? w = some x) ∧
      (b.kind = .dfa → (∃ c, b.accessible = .ok c) ∧
        (∃ q, b.machine.initial.head? = some q ∧ q < b.machine.size) ∧
        ∀ q c r, b.machine.follow? q (.letter c) = some r →
          q < b.machine.size ∧ r < b.machine.size) := by
  have hvalid : a.Valid := by
    rcases ha with h | ⟨k, h⟩
    · exact h.valid_and_exact.1
    · exact h.valid.1
  obtain ⟨b, hb, ⟨hvalid, -, -⟩⟩ := exists_changed hvalid hxs
  have hm := hvalid.meets
  refine ⟨b, hb, validate_eq_ok_iff.mpr hm, fun hk => ?_, fun k => ?_, hvalid.exists_accepts?,
    fun hk => ⟨?_, ?_, fun q c r hr => ?_⟩⟩
  · obtain ⟨kind, m⟩ := b
    obtain rfl := hk
    exact ofMachine_eq_ok.mpr ⟨hvalid, rfl⟩
  · obtain ⟨c, hc, -⟩ := exists_convert hvalid k
    exact ⟨c, hc⟩
  · obtain ⟨c, hc, -⟩ := exists_accessible hvalid hk
    exact ⟨c, hc⟩
  · obtain ⟨q, hq, hlt⟩ := exists_initial (hk ▸ hm)
    exact ⟨q, by rw [hq, List.head?_cons], hlt⟩
  · refine ⟨?_, follow?_lt hm.confined hr⟩
    exact (mem_targets_of_follow? hr).elim Graph.lt_size_of_mem_targets
      Graph.lt_size_of_mem_targets

theorem changed_sound_circling :
    ofMachine .enfa circling = .ok ⟨.enfa, circling⟩ ∧
    Change.AllApply .enfa [.convert .dfa, .accessible, .convert .nfa, .convert .dfa] ∧
    ∃ b, changed ⟨.enfa, circling⟩
        [.convert .dfa, .accessible, .convert .nfa, .convert .dfa] = .ok b ∧
      b.machine.validate b.kind = .ok () ∧
      (b.kind = .dfa → ofMachine .dfa b.machine = .ok b) ∧
      (∀ k, ∃ c, b.convert k = .ok c) ∧ (∀ w, ∃ x, b.accepts? w = some x) ∧
      (b.kind = .dfa → (∃ c, b.accessible = .ok c) ∧
        (∃ q, b.machine.initial.head? = some q ∧ q < b.machine.size) ∧
        ∀ q c r, b.machine.follow? q (.letter c) = some r →
          q < b.machine.size ∧ r < b.machine.size) :=
  have hmade : ofMachine .enfa circling = .ok ⟨.enfa, circling⟩ := rfl
  have happly : Change.AllApply .enfa
      [.convert .dfa, .accessible, .convert .nfa, .convert .dfa] :=
    ⟨trivial, rfl, trivial, trivial, trivial⟩
  ⟨hmade, happly, changed_sound (.inr ⟨.enfa, circling, hmade⟩) happly⟩

end Automaton

end Acceptor
