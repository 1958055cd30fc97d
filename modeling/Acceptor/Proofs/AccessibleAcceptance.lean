import Acceptor.Proofs.AccessiblePart

/-!
# Acceptance with empty moves in the accessible part

A run that starts in an initial state stays among the accessible ones, so the accessible part has
the language of the machine. Acceptance with empty moves asks for more than a run: its end has to
lie behind a final state, and that final state need not be accessible itself. The accessible part
leaves such a state out. So it accepts what is read past an accessible final state, which is all
that the machine accepts exactly if no word is accepted for the sake of another final state alone.

## Main results

* `Machine.PartOn.readsPast_iff`: what a part on the accessible states accepts.
* `Automaton.accepts?_accessible_iff`: where taking the accessible part keeps the answer.
* `Automaton.not_forall_accepts?_accessible`: it does not keep every answer.
-/

namespace Acceptor

namespace Machine

variable {m n : Machine} {p q i j : Nat} {w : List Char} {kept : List Nat}

/-- A word that some run from an initial state reads, whose end empty moves reach from an accessible
final state. -/
def ReadsPastAccessible (m : Machine) (w : List Char) : Prop :=
  ∃ p ∈ m.initial, ∃ f ∈ m.finals, m.Accessible f ∧ ∃ q, m.Run p w q ∧ m.graph.EpsilonPath f q

theorem ReadsPastAccessible.readsPast (h : m.ReadsPastAccessible w) : m.ReadsPast w := by
  obtain ⟨p, hp, f, hf, -, q, hrun, hpath⟩ := h
  exact ⟨p, hp, f, hf, q, hrun, hpath⟩

/-- Runs do not leave the accessible states. -/
theorem Accessible.run (hp : m.Accessible p) (h : m.Run p w q) : m.Accessible q := by
  induction h with
  | stay => exact hp
  | read hq _ _ ih => exact ih (hp.step hq)
  | skip hq _ ih => exact ih (hp.step hq)

/-- If only accessible final states have accessible states behind them, nothing is read past any
other. -/
theorem ReadsPast.accessible
    (hfinal : ∀ f ∈ m.finals, ∀ q, m.graph.EpsilonPath f q → m.Accessible q → m.Accessible f)
    (h : m.ReadsPast w) : m.ReadsPastAccessible w := by
  obtain ⟨p, hp, f, hf, q, hrun, hpath⟩ := h
  have hq : m.Accessible q := (Accessible.initial hp).run hrun
  exact ⟨p, hp, f, hf, hfinal f hf q hpath hq, q, hrun, hpath⟩

/-! ### Empty moves of a part -/

theorem PartOn.epsilonPath (h : m.PartOn kept n) (hpath : m.graph.EpsilonPath p q)
    (hi : kept[i]? = some p) (hj : kept[j]? = some q) : n.graph.EpsilonPath i j := by
  obtain ⟨j', hj', hrun⟩ := h.run (run_nil_iff.mpr hpath) hi
  obtain rfl := place_unique h.nodup hj hj'
  exact run_nil_iff.mp hrun

theorem PartOn.epsilonPath_back (h : m.PartOn kept n) (hpath : n.graph.EpsilonPath i j)
    (hi : kept[i]? = some p) (hj : kept[j]? = some q) : m.graph.EpsilonPath p q := by
  obtain ⟨q', hq', hrun⟩ := h.run_back (run_nil_iff.mpr hpath) hi
  obtain rfl := Option.some.inj (hj.symm.trans hq')
  exact run_nil_iff.mp hrun

/-- **What the accessible part accepts.** Of the final states only those that are kept count. -/
theorem PartOn.readsPast_iff (h : m.PartOn kept n) (hmem : ∀ q, q ∈ kept ↔ m.Accessible q) :
    n.ReadsPast w ↔ m.ReadsPastAccessible w := by
  constructor
  · rintro ⟨i, hi, g, hg, j, hrun, hpath⟩
    obtain ⟨p, hp, hpi⟩ := h.initial.exists_old hi
    obtain ⟨f, hf, hfg⟩ := h.finals.exists_old hg
    obtain ⟨q, hqj, hrun⟩ := h.run_back hrun hpi
    obtain ⟨hfinal, hkept⟩ := List.mem_filter.mp hf
    exact ⟨p, hp, f, hfinal, (hmem f).mp (by simpa using hkept), q, hrun,
      h.epsilonPath_back hpath hfg hqj⟩
  · rintro ⟨p, hp, f, hf, hacc, q, hrun, hpath⟩
    obtain ⟨i, hi, hpi⟩ := h.initial.exists_new hp
    obtain ⟨j, hqj, hrun⟩ := h.run hrun hpi
    have hkept : f ∈ m.finals.filter (· ∈ kept) :=
      List.mem_filter.mpr ⟨hf, by simpa using (hmem f).mpr hacc⟩
    obtain ⟨g, hg, hfg⟩ := h.finals.exists_new hkept
    exact ⟨i, hi, g, hg, j, hrun, h.epsilonPath hpath hfg hqj⟩

end Machine

namespace Automaton

open Machine

variable {m : Machine}

/-- **Where the accessible part keeps the answer.** The accessible part of an automaton with empty
moves is one. It accepts the words that are read past an accessible final state, and so no word that
the automaton rejects. Both agree on a word exactly if it is read past an accessible final state as
soon as it is read past any. They agree on all words if no accessible state lies behind a final
state that is not accessible. -/
theorem accepts?_accessible_iff {a : Automaton} (ha : ofMachine .enfa m = .ok a) :
    ∃ n b, m.accessible? = some n ∧ ofMachine .enfa n = .ok b ∧
      (∀ w : String, ∃ x y, a.accepts? w = some x ∧ b.accepts? w = some y ∧
        (y = true ↔ m.ReadsPastAccessible w.toList) ∧ (y = true → x = true) ∧
        (x = y ↔ (m.ReadsPast w.toList → m.ReadsPastAccessible w.toList))) ∧
      ((∀ f ∈ m.finals, ∀ q, m.graph.EpsilonPath f q → m.Accessible q → m.Accessible f) →
        ∀ w, a.accepts? w = b.accepts? w) := by
  obtain ⟨hcheck, rfl⟩ := ofMachine_eq_ok.mp ha
  have hm := (check_eq_ok (by simp)).mp hcheck
  obtain ⟨kept, hkept, hsorted, hmem⟩ := accessible?_eq_some hm
  have hclosed := closed_of_accessible hm hmem
  have hinitial : ∀ q ∈ m.initial, q ∈ kept := fun q hq => (hmem q).mpr (.initial hq)
  have hpart := partOn_restrict hclosed hsorted hinitial
  have hmeets := meets_restrict hm hclosed hinitial
  have hanswer (w : String) : ∃ x y, accepts? ⟨.enfa, m⟩ w = some x ∧
      accepts? ⟨.enfa, m.restrict kept⟩ w = some y ∧ (x = true ↔ m.ReadsPast w.toList) ∧
      (y = true ↔ m.ReadsPastAccessible w.toList) := by
    obtain ⟨x, hx, hxiff⟩ := accepts?_enfa hm w
    obtain ⟨y, hy, hyiff⟩ := accepts?_enfa hmeets w
    exact ⟨x, y, hx, hy, hxiff, hyiff.trans (hpart.readsPast_iff hmem)⟩
  refine ⟨_, _, hkept, ofMachine_eq_ok.mpr ⟨check_restrict hcheck hclosed hinitial, rfl⟩,
    fun w => ?_, fun hfinal w => ?_⟩
  · obtain ⟨x, y, hx, hy, hxiff, hyiff⟩ := hanswer w
    refine ⟨x, y, hx, hy, hyiff, fun h => hxiff.mpr (hyiff.mp h).readsPast, ?_⟩
    rw [Bool.eq_iff_iff, hxiff, hyiff]
    exact ⟨fun h => h.mp, fun h => ⟨h, ReadsPastAccessible.readsPast⟩⟩
  · obtain ⟨x, y, hx, hy, hxiff, hyiff⟩ := hanswer w
    have hxy : x = y := by
      rw [Bool.eq_iff_iff, hxiff, hyiff]
      exact ⟨ReadsPast.accessible hfinal, ReadsPastAccessible.readsPast⟩
    rw [hx, hy, hxy]

/-- The letter `a` leads from the initial state to a final one. There is another final state, to
which nothing leads, and an empty move leads from it to the initial state. -/
def straying : Machine where
  graph := ⟨#[⟨"p", .ofList [(.letter 'a', 1)]⟩, ⟨"r", ∅⟩, ⟨"s", .ofList [(.epsilon, 0)]⟩]⟩
  initial := [0]
  finals := [1, 2]
  alphabet := .ofList ['a']

/-- The same without the empty move. -/
def aloof : Machine :=
  { straying with graph := ⟨#[⟨"p", .ofList [(.letter 'a', 1)]⟩, ⟨"r", ∅⟩, ⟨"s", ∅⟩]⟩ }

theorem accepts?_accessible_iff_straying :
    (ofMachine .enfa straying = .ok ⟨.enfa, straying⟩ ∧
      ∃ n b, straying.accessible? = some n ∧ ofMachine .enfa n = .ok b ∧
        ∀ w : String, ∃ x y, accepts? ⟨.enfa, straying⟩ w = some x ∧ b.accepts? w = some y ∧
          (y = true ↔ straying.ReadsPastAccessible w.toList) ∧ (y = true → x = true) ∧
          (x = y ↔ (straying.ReadsPast w.toList → straying.ReadsPastAccessible w.toList))) ∧
    ofMachine .enfa aloof = .ok ⟨.enfa, aloof⟩ ∧
      (∀ f ∈ aloof.finals, ∀ q, aloof.graph.EpsilonPath f q → aloof.Accessible q →
        aloof.Accessible f) ∧
      ∃ n b, aloof.accessible? = some n ∧ ofMachine .enfa n = .ok b ∧
        ∀ w, accepts? ⟨.enfa, aloof⟩ w = b.accepts? w := by
  have hstraying : ofMachine .enfa straying = .ok ⟨.enfa, straying⟩ := rfl
  have haloof : ofMachine .enfa aloof = .ok ⟨.enfa, aloof⟩ := rfl
  have hnone : ∀ f ∈ aloof.finals, aloof.graph.targets f .epsilon = [] := by decide
  have hfinal : ∀ f ∈ aloof.finals, ∀ q, aloof.graph.EpsilonPath f q → aloof.Accessible q →
      aloof.Accessible f := by
    intro f hf q hpath hq
    rwa [hpath.eq_of_targets (hnone f hf)]
  obtain ⟨n, b, hn, hb, hanswers, -⟩ := accepts?_accessible_iff hstraying
  obtain ⟨n', b', hn', hb', -, hsame⟩ := accepts?_accessible_iff haloof
  exact ⟨⟨hstraying, n, b, hn, hb, hanswers⟩, haloof, hfinal, n', b', hn', hb', hsame hfinal⟩

/-- The empty word is accepted for the sake of a final state that is not accessible. -/
theorem not_forall_accepts?_accessible :
    ¬∀ m a, ofMachine .enfa m = .ok a →
      ∃ n b, m.accessible? = some n ∧ ofMachine .enfa n = .ok b ∧
        ∀ w : String, b.accepts? w = a.accepts? w := by
  intro h
  obtain ⟨n, b, hn, hb, hsame⟩ := h straying ⟨.enfa, straying⟩ rfl
  have hrejected : (straying.accessible?.bind fun n =>
      (ofMachine .enfa n).toOption.bind (·.accepts? "")) = some false := by decide +kernel
  have haccepted : accepts? ⟨.enfa, straying⟩ "" = some true := by decide +kernel
  rw [hn, Option.bind_some, hb] at hrejected
  have hsame' := hsame ""
  rw [haccepted] at hsame'
  have hfalse : b.accepts? "" = some false := hrejected
  rw [hfalse] at hsame'
  cases hsame'

end Automaton

end Acceptor
