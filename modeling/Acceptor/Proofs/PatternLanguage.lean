import Acceptor.Graph.Names
import Acceptor.Proofs.Determinization
import Acceptor.Proofs.Elimination
import Acceptor.Proofs.PatternRuns

/-!
# Automata of patterns accept the words of the pattern

The machine of a pattern has the edges of its items and nothing else, so it reads the words of the
pattern. No edge but a loop leaves its final state, and so it accepts what it reads. Elimination
and determinization keep the language, whence all automata of one pattern agree.

## Main results

* `Pattern.label_ne_epsilon_of_parse`: patterns in text have no items for empty moves.
* `Pattern.meets_machine`: the machine of a pattern meets the demands with empty moves.
* `Pattern.reads_machine`, `Pattern.readsPast_machine`: it reads and accepts the words of the
  pattern.
-/

namespace Acceptor

namespace Graph

variable {g : Graph} {q r : Nat} {l : Label} {as : List Arrow}

@[simp] theorem size_addEdges : (g.addEdges as).size = g.size := by
  induction as generalizing g with
  | nil => rfl
  | cons a as ih =>
    rw [addEdges, List.foldl_cons]
    exact ih.trans size_addEdge

theorem mem_targets_addEdges (has : ∀ a ∈ as, a.1 < g.size) :
    r ∈ (g.addEdges as).targets q l ↔ r ∈ g.targets q l ∨ (q, l, r) ∈ as := by
  induction as generalizing g with
  | nil => simp [addEdges]
  | cons a as ih =>
    obtain ⟨ha, has⟩ := List.forall_mem_cons.mp has
    have hrest : ∀ b ∈ as, b.1 < (g.addEdge a.1 a.2.1 a.2.2).size := by simpa using has
    rw [addEdges, List.foldl_cons, ← addEdges, ih hrest, targets_addEdge ha]
    obtain ⟨p, k, s⟩ := a
    split
    · next h =>
      obtain ⟨rfl, rfl⟩ := h
      simp [or_assoc]
    · next h => simp [← and_assoc, h]

theorem foldl_addState_spec (names : List String) :
    (names.foldl addState g).size = g.size + names.length ∧
      ∀ q l, (names.foldl addState g).targets q l = g.targets q l := by
  induction names generalizing g with
  | nil => simp
  | cons name names ih =>
    obtain ⟨hsize, htargets⟩ := ih (g := g.addState name)
    refine ⟨?_, fun q l => by rw [List.foldl_cons, htargets, targets_addState]⟩
    rw [List.foldl_cons, hsize, size_addState, List.length_cons]
    omega

theorem size_ofNames (names : List String) : (ofNames names).size = names.length := by
  have h := (foldl_addState_spec (g := ∅) names).1
  rwa [show (∅ : Graph).size = 0 from rfl, Nat.zero_add] at h

theorem targets_ofNames (names : List String) (q : Nat) (l : Label) :
    (ofNames names).targets q l = [] :=
  ((foldl_addState_spec (g := ∅) names).2 q l).trans (targets_eq_nil (Nat.zero_le q))

@[simp] theorem names_ofNames (ns : List String) : (ofNames ns).names = ns :=
  names_foldl_addState

@[simp] theorem names_addEdges : (g.addEdges as).names = g.names := by
  induction as generalizing g with
  | nil => rfl
  | cons a as ih =>
    rw [addEdges, List.foldl_cons]
    exact ih.trans names_addEdge

end Graph

namespace Pattern

variable {p : Pattern} {q r : Nat} {l : Label} {w : List Char}

/-! ### Patterns in text -/

theorem push_labels {stack stack' : List Item} {index : Nat} {c : Char}
    (hstack : ∀ x ∈ stack, x.label ≠ .epsilon) (h : push stack index c = .ok stack') :
    ∀ x ∈ stack', x.label ≠ .epsilon := by
  unfold push at h
  split at h
  · split at h
    · cases h
    · next x below =>
      cases h
      obtain ⟨hx, hbelow⟩ := List.forall_mem_cons.mp hstack
      have hrepeated : ∀ y ∈ repeated c x, y.label = x.label := by
        rw [repeated]
        split
        · simp
        · split <;> simp
      intro y hy
      rcases List.mem_append.mp hy with hy | hy
      · exact hrepeated y hy ▸ hx
      · exact hbelow y hy
  · cases h
    refine List.forall_mem_cons.mpr ⟨?_, hstack⟩
    show atom c ≠ .epsilon
    rw [atom]
    split <;> simp

theorem pushAll_labels {cs : List Char} {stack stack' : List Item} {index : Nat}
    (hstack : ∀ x ∈ stack, x.label ≠ .epsilon) (h : pushAll stack index cs = .ok stack') :
    ∀ x ∈ stack', x.label ≠ .epsilon := by
  induction cs generalizing stack index with
  | nil =>
    cases h
    exact hstack
  | cons c cs ih =>
    rw [pushAll] at h
    cases hpush : push stack index c with
    | error e => simp [hpush, Except.bind] at h
    | ok next => exact ih (push_labels hstack hpush) (by simpa [hpush, Except.bind] using h)

/-- Items of patterns in text read characters. -/
theorem label_ne_epsilon_of_parse {s : String} (h : parse s = .ok p) :
    ∀ x ∈ p.items, x.label ≠ .epsilon := by
  rw [parse] at h
  cases hpush : pushAll [] 0 s.toList with
  | error e => simp [hpush, Except.map] at h
  | ok stack =>
    obtain rfl : ⟨stack.reverse⟩ = p := by simpa [hpush, Except.map] using h
    intro x hx
    exact pushAll_labels (by simp) hpush x (List.mem_reverse.mp hx)

/-! ### The machine of a pattern -/

theorem mem_alphabet {c : Char} : c ∈ p.alphabet ↔ ∃ x ∈ p.items, x.label = .letter c := by
  simp [alphabet, Label.letter?_eq_some]

@[simp] theorem size_machine (p : Pattern) : p.machine.size = lastState 0 p.items + 1 := by
  simp [Machine.size, machine, Graph.size_ofNames]

theorem lt_of_mem_arrows_zero (h : (q, l, r) ∈ arrows 0 p.items) :
    q < p.machine.size ∧ r < p.machine.size := by
  obtain ⟨-, hr, ⟨-, hq⟩ | ⟨_, -, -, hq⟩⟩ := mem_arrows h <;> rw [size_machine] <;> omega

theorem mem_targets_machine (p : Pattern) (q : Nat) (l : Label) (r : Nat) :
    r ∈ p.machine.graph.targets q l ↔ (q, l, r) ∈ arrows 0 p.items := by
  have hsources : ∀ a ∈ arrows 0 p.items,
      a.1 < (Graph.ofNames ((List.range (lastState 0 p.items + 1)).map toString)).size := by
    rintro ⟨q, l, r⟩ h
    have hq := (lt_of_mem_arrows_zero h).1
    simpa [Graph.size_ofNames] using hq
  show r ∈ (Graph.addEdges _ _).targets q l ↔ _
  rw [Graph.mem_targets_addEdges hsources, Graph.targets_ofNames]
  simp

theorem meets_machine (p : Pattern) : p.machine.Meets .enfa := by
  refine ⟨by simp [machine], nofun, fun q hq => ?_, fun q hq => ?_, fun q l r hr => ?_,
    fun q c hc => ?_, fun hk => absurd rfl hk, nofun, nofun⟩
  · obtain rfl : q = 0 := by simpa [machine] using hq
    simp
  · obtain rfl : q = lastState 0 p.items := by simpa [machine] using hq
    simp
  · exact (lt_of_mem_arrows_zero ((mem_targets_machine p q l r).mp hr)).2
  · obtain ⟨r, hr⟩ := List.exists_mem_of_ne_nil _ hc
    obtain ⟨-, -, ⟨h, -⟩ | ⟨x, hx, hl, -⟩⟩ := mem_arrows ((mem_targets_machine p q _ r).mp hr)
    · cases h
    · exact mem_alphabet.mpr ⟨x, hx, hl.symm⟩

/-- The machine of a pattern reads the words of the pattern. -/
theorem reads_machine (hlabels : ∀ x ∈ p.items, x.label ≠ .epsilon) :
    p.machine.Reads w ↔ p.Matches w := by
  rw [Matches, ← arrowRun_iff hlabels (i := 0), ← run_iff_arrowRun (mem_targets_machine p)]
  simp [Machine.Reads, machine]

/-- Empty moves lead on, and nothing is behind the final state. -/
theorem targets_epsilon_lastState (hlabels : ∀ x ∈ p.items, x.label ≠ .epsilon) :
    p.machine.graph.targets (lastState 0 p.items) .epsilon = [] := by
  refine List.eq_nil_iff_forall_not_mem.mpr fun r hr => ?_
  obtain ⟨-, hr, ⟨-, h⟩ | ⟨x, hx, hl, -⟩⟩ := mem_arrows ((mem_targets_machine p _ _ r).mp hr)
  · omega
  · exact hlabels x hx hl.symm

theorem readsPast_machine (hlabels : ∀ x ∈ p.items, x.label ≠ .epsilon) :
    p.machine.ReadsPast w ↔ p.Matches w := by
  rw [← reads_machine hlabels]
  refine Machine.readsPast_iff fun f hf q hpath => ?_
  obtain rfl : f = lastState 0 p.items := by simpa [machine] using hf
  obtain rfl := hpath.eq_of_targets (targets_epsilon_lastState hlabels)
  exact ⟨_, hf, .refl _⟩

end Pattern

namespace Automaton

open Machine

theorem checked_machine (p : Pattern) : checked .enfa p.machine = .ok p.machine :=
  checked_eq_ok.mpr ⟨(check_eq_ok (by simp)).mpr p.meets_machine, rfl⟩

/-- **All automata of a pattern accept its words.** A pattern in text always compiles to an
automaton with empty moves, which converts to one without and on to a deterministic one. The three
accept exactly the words that can be cut into words of the items. -/
theorem accepts?_ofPattern {s : String} {p : Pattern} (hparse : Pattern.parse s = .ok p) :
    ∃ e n d, ofPattern .enfa p = .ok e ∧ e.convert .nfa = .ok n ∧ n.convert .dfa = .ok d ∧
      ofPattern .dfa p = .ok d ∧ ∀ w : String, ∃ b,
        e.accepts? w = some b ∧ n.accepts? w = some b ∧ d.accepts? w = some b ∧
          (b = true ↔ p.Matches w.toList) := by
  have hlabels := Pattern.label_ne_epsilon_of_parse hparse
  have hm := p.meets_machine
  have hchecked : checked .enfa p.machine = .ok p.machine :=
    checked_eq_ok.mpr ⟨(check_eq_ok (by simp)).mpr hm, rfl⟩
  obtain ⟨n, hn, helim, hnm⟩ := eliminated_eq_ok hm
  obtain ⟨d, hd, hlanguage⟩ := determinized_eq_ok hnm
  refine ⟨⟨.enfa, p.machine⟩, ⟨.nfa, n⟩, ⟨.dfa, d⟩, ?_, ?_, ?_, ?_, fun w => ?_⟩
  · simp [ofPattern, hchecked, convert, bind, Except.bind]
  · simp [convert, hn, Except.map]
  · simp [convert, hd, Except.map]
  · simp [ofPattern, hchecked, convert, hn, hd, bind, Except.bind, Except.map]
  · obtain ⟨b, hb, hiff⟩ := accepts?_enfa hm w
    obtain ⟨b', hb', hiff'⟩ := accepts?_nfa hnm w
    obtain ⟨b'', hb'', hiff''⟩ := hlanguage w
    rw [reads_of_eliminate? hm helim, Pattern.reads_machine hlabels] at hiff' hiff''
    rw [Pattern.readsPast_machine hlabels] at hiff
    have heq' : b' = b := Bool.eq_iff_iff.mpr (hiff'.trans hiff.symm)
    have heq'' : b'' = b := Bool.eq_iff_iff.mpr (hiff''.trans hiff.symm)
    exact ⟨b, hb, heq' ▸ hb', heq'' ▸ hb'', hiff⟩

theorem accepts?_ofPattern_adjacent :
    Pattern.parse "a*.*b?" = .ok ⟨[⟨.letter 'a', .many⟩, ⟨.any, .many⟩, ⟨.letter 'b', .optional⟩]⟩ ∧
      ∃ e n d,
        ofPattern .enfa ⟨[⟨.letter 'a', .many⟩, ⟨.any, .many⟩, ⟨.letter 'b', .optional⟩]⟩ = .ok e ∧
        e.convert .nfa = .ok n ∧ n.convert .dfa = .ok d ∧
        ofPattern .dfa ⟨[⟨.letter 'a', .many⟩, ⟨.any, .many⟩, ⟨.letter 'b', .optional⟩]⟩ = .ok d ∧
        ∀ w : String, ∃ b,
          e.accepts? w = some b ∧ n.accepts? w = some b ∧ d.accepts? w = some b ∧
            (b = true ↔ Pattern.Matches
              ⟨[⟨.letter 'a', .many⟩, ⟨.any, .many⟩, ⟨.letter 'b', .optional⟩]⟩ w.toList) :=
  have h : Pattern.parse "a*.*b?" = .ok _ := rfl
  ⟨h, accepts?_ofPattern h⟩

end Automaton

end Acceptor
