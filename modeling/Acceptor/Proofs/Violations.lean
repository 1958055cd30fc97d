import Acceptor.Machine.Violations
import Acceptor.Proofs.Validation

/-!
# Validation reports what is wrong

The defects listed for a machine are exactly those that are true of it. So the defect that validation
reports is true, and none is overlooked: a machine of which any defect is true is refused.

Each part of the list is told first by itself, a label or a state at a time. The parts of a state are
given by its groups and speak of a name; what they say is carried over to ids, since an id that is no
state has no targets.

## Main results

* `Machine.mem_defects_iff`: the defects listed are the true ones.
* `Machine.validate_decides`: what validation accepts, and what its errors say.
-/

namespace Acceptor

namespace Machine

variable {k : Kind} {m : Machine} {s : State} {l : Label} {qs : List Nat} {d : Defect}

/-! ### The parts of the list -/

theorem mem_initialDefects : d ∈ m.initialDefects k ↔
    d = .noInitial ∧ m.initial = [] ∨
      k = .dfa ∧ 1 < m.initial.length ∧ d = .severalInitial m.initial.length := by
  rw [initialDefects]
  split
  · next h => simp [h]
  · next h =>
    have hlength : m.initial.length ≠ 1 ↔ 1 < m.initial.length := by
      have := List.length_pos_iff.mpr h
      omega
    simp [h, hlength, and_assoc]

theorem mem_rangeDefects : d ∈ m.rangeDefects qs ↔
    ∃ q ∈ qs, m.size ≤ q ∧ d = .outOfRange q m.size := by
  simp [rangeDefects, and_assoc, eq_comm]

theorem mem_groupDefects : d ∈ m.groupDefects k s l qs ↔
    (∃ q ∈ qs, m.size ≤ q ∧ d = .outOfRange q m.size) ∨
    (∃ c, l = .letter c ∧ c ∉ m.alphabet ∧ d = .foreignLetter s.name c) ∨
    (l = .epsilon ∧ k ≠ .enfa ∧ d = .epsilonEdge s.name) ∨
    (k = .dfa ∧ 1 < qs.length ∧ d = .ambiguous s.name l) := by
  simp only [groupDefects, List.append_assoc, List.mem_append, mem_rangeDefects,
    List.mem_ite_nil_right, List.mem_singleton, and_assoc]
  refine or_congr_right ?_
  rw [← or_assoc]
  refine or_congr_left ?_
  cases l <;> simp

theorem mem_missingLetters {c : Char} : c ∈ m.missingLetters s ↔
    c ∈ m.alphabet ∧ s.edges.targets (.letter c) = [] := by
  simp [missingLetters, Edges.has, Alphabet.mem_def]

theorem missingLetters_sorted : (m.missingLetters s).Pairwise (· < ·) := m.alphabet.sorted.filter _

theorem mem_stateDefects : d ∈ m.stateDefects k s ↔
    (∃ l, s.edges.targets l ≠ [] ∧ d ∈ m.groupDefects k s l (s.edges.targets l)) ∨
    (k = .dfa ∧ m.missingLetters s ≠ [] ∧ d = .missingLetters s.name (m.missingLetters s)) := by
  simp only [stateDefects, List.mem_append, List.mem_flatMap, List.mem_ite_nil_right,
    List.mem_singleton, and_assoc]
  refine or_congr_left ⟨?_, ?_⟩
  · rintro ⟨⟨l, qs⟩, hg, hd⟩
    obtain ⟨rfl, hne⟩ := Edges.mem_groups.mp hg
    exact ⟨l, hne, hd⟩
  · rintro ⟨l, hne, hd⟩
    exact ⟨(l, s.edges.targets l), Edges.mem_groups.mpr ⟨rfl, hne⟩, hd⟩

theorem mem_defects : d ∈ m.defects k ↔ d ∈ m.initialDefects k ∨
    d ∈ m.rangeDefects (m.initial ++ m.finals) ∨
    ∃ (p : Nat) (s : State), m.graph.states[p]? = some s ∧ d ∈ m.stateDefects k s := by
  simp only [defects, List.append_assoc, List.mem_append, List.mem_flatMap, Array.mem_toList_iff]
  refine or_congr_right (or_congr_right ⟨?_, ?_⟩)
  · rintro ⟨s, hs, hd⟩
    obtain ⟨p, hp⟩ := Array.getElem?_of_mem hs
    exact ⟨p, s, hp, hd⟩
  · rintro ⟨p, s, hs, hd⟩
    exact ⟨s, Array.mem_of_getElem? hs, hd⟩

/-! ### What is listed is true -/

theorem isNamed_iff {p : Nat} {name : String} : m.graph.IsNamed p name ↔
    ∃ s, m.graph.states[p]? = some s ∧ s.name = name :=
  Option.map_eq_some_iff

theorem trueOf_of_mem_stateDefects {p : Nat} (hs : m.graph.states[p]? = some s)
    (hd : d ∈ m.stateDefects k s) : d.TrueOf k m := by
  have hname : m.graph.IsNamed p s.name := isNamed_iff.mpr ⟨s, hs, rfl⟩
  have htargets := Graph.targets_eq_of_getElem? hs
  rcases mem_stateDefects.mp hd with ⟨l, hne, hd⟩ | ⟨hk, hne, rfl⟩
  · rw [← htargets] at hne hd
    rcases mem_groupDefects.mp hd with ⟨q, hq, hle, rfl⟩ | ⟨c, rfl, hc, rfl⟩ | ⟨rfl, hk, rfl⟩ |
      ⟨hk, hlt, rfl⟩
    · exact ⟨rfl, hle, .inr (.inr ⟨p, l, hq⟩)⟩
    · exact ⟨hc, p, hname, hne⟩
    · exact ⟨hk, p, hname, hne⟩
    · exact ⟨hk, p, hname, hlt⟩
  · refine ⟨hk, hne, missingLetters_sorted, p, hname, fun c => ?_⟩
    rw [mem_missingLetters, htargets]

theorem trueOf_of_mem_defects (hd : d ∈ m.defects k) : d.TrueOf k m := by
  rcases mem_defects.mp hd with hd | hd | ⟨p, s, hs, hd⟩
  · rcases mem_initialDefects.mp hd with ⟨rfl, hnil⟩ | ⟨hk, hlt, rfl⟩
    · exact hnil
    · exact ⟨hk, rfl, hlt⟩
  · obtain ⟨q, hq, hle, rfl⟩ := mem_rangeDefects.mp hd
    exact ⟨rfl, hle, (List.mem_append.mp hq).imp_right .inl⟩
  · exact trueOf_of_mem_stateDefects hs hd

/-! ### What is true is listed -/

theorem mem_defects_of_targets {p : Nat} (hs : m.graph.states[p]? = some s)
    (hne : m.graph.targets p l ≠ []) (hd : d ∈ m.groupDefects k s l (m.graph.targets p l)) :
    d ∈ m.defects k := by
  rw [Graph.targets_eq_of_getElem? hs] at hne hd
  exact mem_defects.mpr (.inr (.inr ⟨p, s, hs, mem_stateDefects.mpr (.inl ⟨l, hne, hd⟩)⟩))

theorem mem_defects_of_trueOf (hd : d.TrueOf k m) : d ∈ m.defects k := by
  cases d with
  | noInitial => exact mem_defects.mpr (.inl (mem_initialDefects.mpr (.inl ⟨rfl, hd⟩)))
  | severalInitial n =>
    obtain ⟨hk, rfl, hlt⟩ := hd
    exact mem_defects.mpr (.inl (mem_initialDefects.mpr (.inr ⟨hk, hlt, rfl⟩)))
  | outOfRange q n =>
    obtain ⟨rfl, hle, hq⟩ := hd
    rcases or_assoc.mpr hq with hq | ⟨p, l, hq⟩
    · exact mem_defects.mpr (.inr (.inl (mem_rangeDefects.mpr
        ⟨q, List.mem_append.mpr hq, hle, rfl⟩)))
    · obtain ⟨s, hs, -⟩ := Graph.mem_targets.mp hq
      exact mem_defects_of_targets hs (List.ne_nil_of_mem hq)
        (mem_groupDefects.mpr (.inl ⟨q, hq, hle, rfl⟩))
  | epsilonEdge name =>
    obtain ⟨hk, p, hname, hne⟩ := hd
    obtain ⟨s, hs, rfl⟩ := isNamed_iff.mp hname
    exact mem_defects_of_targets hs hne (mem_groupDefects.mpr (.inr (.inr (.inl ⟨rfl, hk, rfl⟩))))
  | foreignLetter name c =>
    obtain ⟨hc, p, hname, hne⟩ := hd
    obtain ⟨s, hs, rfl⟩ := isNamed_iff.mp hname
    exact mem_defects_of_targets hs hne (mem_groupDefects.mpr (.inr (.inl ⟨c, rfl, hc, rfl⟩)))
  | missingLetters name cs =>
    obtain ⟨hk, hne, hsorted, p, hname, hmem⟩ := hd
    obtain ⟨s, hs, rfl⟩ := isNamed_iff.mp hname
    have hcs : cs = m.missingLetters s :=
      Sorted.eq_of_mem_iff (fun _ _ => Char.lt_asymm) hsorted missingLetters_sorted fun c => by
        rw [hmem, mem_missingLetters, Graph.targets_eq_of_getElem? hs]
    subst hcs
    exact mem_defects.mpr (.inr (.inr ⟨p, s, hs, mem_stateDefects.mpr (.inr ⟨hk, hne, rfl⟩)⟩))
  | ambiguous name l =>
    obtain ⟨hk, p, hname, hlt⟩ := hd
    obtain ⟨s, hs, rfl⟩ := isNamed_iff.mp hname
    exact mem_defects_of_targets hs (List.ne_nil_of_length_pos (Nat.zero_lt_of_lt hlt))
      (mem_groupDefects.mpr (.inr (.inr (.inr ⟨hk, hlt, rfl⟩))))
  | uncovered name c => exact hd.elim

/-- **The defects listed are the true ones.** -/
theorem mem_defects_iff : d ∈ m.defects k ↔ d.TrueOf k m :=
  ⟨trueOf_of_mem_defects, mem_defects_of_trueOf⟩

theorem exists_validate_eq_error (hd : d.TrueOf k m) : ∃ e, m.validate k = .error e := by
  cases h : m.validate k with
  | ok =>
    have hnil := validate_eq_ok.mp h
    simpa [hnil] using mem_defects_iff.mpr hd
  | error e => exact ⟨e, rfl⟩

/-- **Validation decides the demands of a kind.** It succeeds exactly for the machines that meet
them. What it reports otherwise is true of the machine, and whenever some defect is true it reports
one. -/
theorem validate_decides (k : Kind) (m : Machine) :
    (m.validate k = .ok () ↔ m.Meets k) ∧
    (∀ d : Defect, m.validate k = .error d → d.TrueOf k m) ∧
    ∀ d : Defect, d.TrueOf k m → ∃ e, m.validate k = .error e :=
  ⟨validate_eq_ok_iff, fun _ h => mem_defects_iff.mp (mem_defects_of_validate h),
    fun _ hd => exists_validate_eq_error hd⟩

/-- Two states of one name. The second one has an edge on one letter of three only. -/
def lacking : Machine where
  graph := ⟨#[⟨"p", .ofList [(.letter 'a', 0), (.letter 'b', 1), (.letter 'c', 0), (.any, 1)]⟩,
    ⟨"p", .ofList [(.letter 'b', 1)]⟩]⟩
  initial := [0]
  finals := [1, 1]
  alphabet := .ofList ['c', 'b', 'a']

/-- A deterministic automaton needs the letters that the second state lacks, the other kinds do
not. -/
theorem validate_decides_lacking :
    (lacking.validate .dfa = .error (.missingLetters "p" ['a', 'c']) ∧
      (Defect.missingLetters "p" ['a', 'c']).TrueOf .dfa lacking ∧
      ∃ e, lacking.validate .dfa = .error e) ∧
    lacking.validate .nfa = .ok () ∧ lacking.Meets .nfa :=
  have herror : lacking.validate .dfa = .error (.missingLetters "p" ['a', 'c']) := rfl
  have hok : lacking.validate .nfa = .ok () := rfl
  have htrue := (validate_decides .dfa lacking).2.1 _ herror
  ⟨⟨herror, htrue, (validate_decides .dfa lacking).2.2 _ htrue⟩,
    hok, (validate_decides .nfa lacking).1.mp hok⟩

end Machine

end Acceptor
