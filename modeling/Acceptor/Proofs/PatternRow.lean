import Acceptor.Machine.Row
import Acceptor.Proofs.PatternLanguage

/-!
# The machine of a pattern is a row

The edges of an item leave the state that the items before it have come to. A loop stays there, so
one state can carry the loop of an item and the edges of the next. But that next item is no loop,
and its edges lead on: whatever comes later is behind the state. So a state has one loop at most,
and where a row of items ends nothing but a loop can be left.

Empty moves come from two places, from an item that can be skipped and from between two loops.

## Main results

* `Pattern.loop_unique`: a state has loops with one label at most.
* `Pattern.inRow_machine`: the machine of a pattern is a row.
* `Pattern.exists_epsilon_mem_arrows`: the items among whose edges there is an empty move.
* `Automaton.ofPattern_inRow`: the automaton of a pattern in text.
-/

namespace Acceptor

namespace Pattern

variable {p : Pattern} {q r i : Nat} {l k : Label} {x : Item} {xs : List Item}

/-! ### Loops -/

/-- The edges of the items after the first one do not lead to the first state. -/
theorem lt_of_mem_arrows_tail {a : Arrow} (h : a ∈ arrows (i + x.advance xs) xs) : i < a.2.2 := by
  by_cases hadvance : x.advance xs = 0
  · rw [hadvance] at h
    refine lt_of_mem_arrows ?_ h
    rw [Item.advance] at hadvance
    split at hadvance
    · cases hadvance
    · cases hadvance
    · split at hadvance <;> simp_all
  · have := (le_of_mem_arrows h).2
    omega

/-- A loop of an item is the loop of its label on its first state. -/
theorem eq_of_loop_mem_item_arrows (h : (q, l, q) ∈ x.arrows xs i) : q = i ∧ l = x.label := by
  obtain ⟨rfl, ⟨-, hq⟩ | ⟨hl, -⟩, -⟩ := mem_item_arrows h
  · omega
  · exact ⟨rfl, hl⟩

theorem loop_unique (h : (q, l, q) ∈ arrows i xs) (h' : (q, k, q) ∈ arrows i xs) : l = k := by
  induction xs generalizing i with
  | nil => cases h
  | cons x xs ih =>
    rcases mem_arrows_cons.mp h with h | h <;> rcases mem_arrows_cons.mp h' with h' | h'
    · exact (eq_of_loop_mem_item_arrows h).2.trans (eq_of_loop_mem_item_arrows h').2.symm
    · obtain ⟨rfl, -⟩ := eq_of_loop_mem_item_arrows h
      exact absurd (lt_of_mem_arrows_tail h') (Nat.lt_irrefl q)
    · obtain ⟨rfl, -⟩ := eq_of_loop_mem_item_arrows h'
      exact absurd (lt_of_mem_arrows_tail h) (Nat.lt_irrefl q)
    · exact ih h h'

/-- The machine of a pattern is a row. -/
theorem inRow_machine (hlabels : ∀ x ∈ p.items, x.label ≠ .epsilon) : p.machine.InRow where
  names := by
    rw [size_machine]
    simp [machine]
  size_pos := by simp
  initial := rfl
  finals := by
    rw [size_machine, Nat.add_sub_cancel]
    rfl
  target q l r hr := by
    obtain ⟨-, -, ⟨-, h⟩ | ⟨-, -, -, h | ⟨h, -⟩⟩⟩ := mem_arrows ((mem_targets_machine p q l r).mp hr)
    · exact .inr h
    · exact .inr h
    · exact .inl h
  loop_unique q l k hl hk :=
    loop_unique ((mem_targets_machine p q l q).mp hl) ((mem_targets_machine p q k q).mp hk)
  loop_ne_epsilon q hq := by
    obtain ⟨-, -, ⟨-, h⟩ | ⟨x, hx, hl, -⟩⟩ := mem_arrows ((mem_targets_machine p q _ q).mp hq)
    · omega
    · exact hlabels x hx hl.symm
  final_target l r hr := by
    rw [size_machine, Nat.add_sub_cancel] at hr ⊢
    obtain ⟨-, hlast, ⟨-, h⟩ | ⟨-, -, -, h | ⟨h, -⟩⟩⟩ :=
      mem_arrows ((mem_targets_machine p _ l r).mp hr)
    · omega
    · omega
    · exact h

/-! ### Empty moves -/

/-- An item has an empty move if it can be skipped, or if it is a loop before a loop. -/
theorem exists_epsilon_mem_item_arrows (hx : x.label ≠ .epsilon) :
    (∃ q r, (q, .epsilon, r) ∈ x.arrows xs i) ↔
      x.count = .optional ∨ x.count = .many ∧ ∃ y ∈ xs.head?, y.count = .many := by
  obtain ⟨label, count⟩ := x
  cases count with
  | one => simpa [Item.arrows] using hx.symm
  | optional => exact iff_of_true ⟨i, i + 1, List.mem_cons_self ..⟩ (.inl rfl)
  | many =>
    have hadvance : Item.advance ⟨label, .many⟩ xs = 1 ↔ ∃ y ∈ xs.head?, y.count = .many := by
      cases xs <;> simp [Item.advance]
    rw [← hadvance]
    by_cases h : Item.advance ⟨label, .many⟩ xs = 1 <;> simp [Item.arrows, h, hx.symm]

theorem exists_epsilon_mem_arrows (hlabels : ∀ x ∈ xs, x.label ≠ .epsilon) :
    (∃ q r, (q, .epsilon, r) ∈ arrows i xs) ↔
      (∃ x ∈ xs, x.count = .optional) ∨
        ∃ x y, [x, y] <:+: xs ∧ x.count = .many ∧ y.count = .many := by
  induction xs generalizing i with
  | nil => simp [arrows]
  | cons x xs ih =>
    obtain ⟨hx, hxs⟩ := List.forall_mem_cons.mp hlabels
    have hpair : (∃ y z, [y, z] <:+: x :: xs ∧ y.count = .many ∧ z.count = .many) ↔
        (x.count = .many ∧ ∃ y ∈ xs.head?, y.count = .many) ∨
          ∃ y z, [y, z] <:+: xs ∧ y.count = .many ∧ z.count = .many := by
      simp only [List.infix_cons_iff, List.cons_prefix_cons, or_and_right, exists_or]
      refine or_congr_left ?_
      cases xs <;> simp
    simp only [mem_arrows_cons, exists_or, exists_epsilon_mem_item_arrows hx, ih hxs, hpair,
      List.exists_mem_cons_iff]
    exact or_or_or_comm

theorem hasEpsilon_machine (hlabels : ∀ x ∈ p.items, x.label ≠ .epsilon) :
    p.machine.hasEpsilon ↔
      (∃ x ∈ p.items, x.count = .optional) ∨
        ∃ x y, [x, y] <:+: p.items ∧ x.count = .many ∧ y.count = .many := by
  rw [Machine.hasEpsilon, Graph.has_iff, ← exists_epsilon_mem_arrows hlabels (i := 0)]
  simp only [mem_targets_machine]

/-- Empty moves are all that keeps the machine of a pattern from being one without. -/
theorem meets_nfa_machine (p : Pattern) :
    p.machine.Meets .nfa ↔ p.machine.hasEpsilon = false := by
  have hnone : p.machine.hasEpsilon = false ↔ ∀ q, p.machine.graph.targets q .epsilon = [] := by
    simp [← Bool.not_eq_true, Machine.hasEpsilon, Graph.has_iff, List.eq_nil_iff_forall_not_mem]
  rw [hnone]
  constructor
  · intro h
    exact h.no_epsilon (by simp)
  · intro h
    exact { p.meets_machine with
      initial_single := nofun, no_epsilon := fun _ => h, letter_single := nofun,
      any_single := nofun }

end Pattern

namespace Automaton

open Machine

/-- **Patterns are compiled to rows.** A pattern in text always compiles to an automaton with empty
moves. Its states stand in a row. There are empty moves among its edges exactly if an item can be
skipped or two items that are read any number of times follow each other, and only then it does not
meet the demands without empty moves. -/
theorem ofPattern_inRow {s : String} {p : Pattern} (hparse : Pattern.parse s = .ok p) :
    ofPattern .enfa p = .ok ⟨.enfa, p.machine⟩ ∧ p.machine.InRow ∧
      (p.machine.hasEpsilon ↔
        (∃ x ∈ p.items, x.count = .optional) ∨
          ∃ x y, [x, y] <:+: p.items ∧ x.count = .many ∧ y.count = .many) ∧
      ((∃ d, p.machine.validate .nfa = .error d) ↔ p.machine.hasEpsilon) := by
  have hlabels := Pattern.label_ne_epsilon_of_parse hparse
  refine ⟨?_, Pattern.inRow_machine hlabels, Pattern.hasEpsilon_machine hlabels, ?_⟩
  · simp [ofPattern, checked_machine, convert, bind, Except.bind]
  · have hvalid := validate_eq_ok_iff.trans p.meets_nfa_machine
    cases hnfa : p.machine.validate .nfa with
    | ok => simpa using hvalid.mp hnfa
    | error d => simpa [hnfa] using hvalid

/-- What `a*b+c*.?` stands for. A loop shares its state with an edge, two loops follow each other,
and the last item can be skipped. -/
def mixed : Pattern :=
  ⟨[⟨.letter 'a', .many⟩, ⟨.letter 'b', .one⟩, ⟨.letter 'b', .many⟩, ⟨.letter 'c', .many⟩,
    ⟨.any, .optional⟩]⟩

theorem ofPattern_inRow_mixed :
    Pattern.parse "a*b+c*.?" = .ok mixed ∧
      ofPattern .enfa mixed = .ok ⟨.enfa, mixed.machine⟩ ∧ mixed.machine.InRow ∧
      mixed.machine.hasEpsilon ∧ ∃ d, mixed.machine.validate .nfa = .error d := by
  have hparse : Pattern.parse "a*b+c*.?" = .ok mixed := rfl
  obtain ⟨hcompiled, hrow, hepsilon, hvalidate⟩ := ofPattern_inRow hparse
  have hskips : mixed.machine.hasEpsilon :=
    hepsilon.mpr (.inl ⟨⟨.any, .optional⟩, by simp [mixed], rfl⟩)
  exact ⟨hparse, hcompiled, hrow, hskips, hvalidate.mpr hskips⟩

end Automaton

end Acceptor
