import Acceptor.Proofs.Quantifiers

/-!
# What texts are patterns

Reading a pattern can only fail at its first character. After that there is an item for every
quantifier to change, and no quantifier removes one. So a text is a pattern unless it starts with a
quantifier, and since the machine of a pattern meets all demands, it then compiles to every kind.

A quantifier changes the item before it and nothing below. Hence a text can be cut before any
character that is no quantifier: its items are those of the two parts. The characters that the items
name are those of the text, quantifiers and dots apart, since quantifiers copy labels and add none.

## Main results

* `Pattern.parse_eq_error_iff`: where and when reading fails.
* `Pattern.parse_append`: the items of two texts, one after the other.
* `Pattern.mem_alphabet_of_parse`: the characters that the items of a text name.
* `Automaton.ofPatternText_compositional`: all of this, and when compiling fails.
-/

namespace Acceptor

namespace Pattern

variable {stack next : List Item} {cs : List Char} {c d : Char} {index : Nat} {s t : String}
  {p q : Pattern} {e : NothingToRepeat}

theorem isQuantifier_iff : isQuantifier c ↔ c = '*' ∨ c = '+' ∨ c = '?' := by
  simp [isQuantifier, or_assoc]

/-! ### Where reading fails -/

theorem push_nil_quantifier (hc : isQuantifier c) : push [] index c = .error ⟨c, index⟩ := by
  simp [push, hc]

/-- A text that starts with an atom can be read on top of anything. -/
theorem exists_pushAll_atom (hc : isQuantifier c = false) (cs : List Char) :
    ∃ next, ∀ below index, pushAll below index (c :: cs) = .ok (next ++ below) := by
  obtain ⟨next, -, hnext⟩ := exists_pushAll (List.cons_ne_nil ⟨atom c, .one⟩ []) cs
  exact ⟨next, fun below index => (pushAll_cons (push_atom hc)).trans (hnext below (index + 1))⟩

theorem pushAll_nil_quantifier (hc : isQuantifier c) (cs : List Char) :
    pushAll [] index (c :: cs) = .error ⟨c, index⟩ := by
  rw [pushAll, push_nil_quantifier hc]
  rfl

/-- A text is a pattern unless it starts with a quantifier. -/
theorem exists_parse (h : ∀ c ∈ s.toList.head?, isQuantifier c = false) :
    ∃ p, parse s = .ok p := by
  cases hs : s.toList with
  | nil => exact ⟨⟨[]⟩, parse_eq_ok.mpr (by rw [hs]; rfl)⟩
  | cons c cs =>
    obtain ⟨next, hnext⟩ := exists_pushAll_atom (h c (by simp [hs])) cs
    refine ⟨⟨next.reverse⟩, parse_eq_ok.mpr ?_⟩
    rw [hs, hnext]
    simp

theorem parse_quantifier (hs : s.toList = c :: cs) (hc : isQuantifier c) :
    parse s = .error ⟨c, 0⟩ := by
  rw [parse, hs, pushAll_nil_quantifier hc]
  rfl

/-- Reading fails at a quantifier at the very start, and nowhere else. -/
theorem parse_eq_error_iff :
    parse s = .error e ↔ ∃ c cs, s.toList = c :: cs ∧ isQuantifier c ∧ e = ⟨c, 0⟩ := by
  constructor
  · intro h
    cases hs : s.toList with
    | nil =>
      obtain ⟨p, hp⟩ := exists_parse (s := s) (by simp [hs])
      cases h.symm.trans hp
    | cons c cs =>
      cases hc : isQuantifier c with
      | false =>
        obtain ⟨p, hp⟩ := exists_parse (s := s) (by simp [hs, hc])
        cases h.symm.trans hp
      | true => exact ⟨c, cs, rfl, hc, Except.error.inj (h.symm.trans (parse_quantifier hs hc))⟩
  · rintro ⟨c, cs, hs, hc, rfl⟩
    exact parse_quantifier hs hc

/-! ### Texts one after the other -/

/-- The items of a text that starts with no quantifier come after those of any text before it. -/
theorem parse_append (hp : parse s = .ok p) (ht : ∀ c ∈ t.toList.head?, isQuantifier c = false) :
    ∃ q, parse t = .ok q ∧ parse (s ++ t) = .ok ⟨p.items ++ q.items⟩ := by
  have hs := parse_eq_ok.mp hp
  obtain ⟨q, hq⟩ := exists_parse ht
  refine ⟨q, hq, parse_eq_ok.mpr ?_⟩
  rw [String.toList_append, pushAll_append hs]
  have hq := parse_eq_ok.mp hq
  cases htext : t.toList with
  | nil =>
    rw [htext] at hq
    have hitems : q.items = [] := List.reverse_eq_nil_iff.mp (Except.ok.inj hq).symm
    simp [pushAll, hitems]
  | cons c cs =>
    -- the same items come on top of nothing and on top of those of the first text
    obtain ⟨next, hnext⟩ := exists_pushAll_atom (ht c (by simp [htext])) cs
    rw [htext, hnext, List.append_nil] at hq
    rw [hnext, Except.ok.inj hq, List.reverse_append]

/-! ### The characters that items name -/

theorem label_of_mem_repeated {x y : Item} (h : y ∈ repeated c x) : y.label = x.label := by
  rw [repeated] at h
  split at h
  · simp_all
  · split at h
    · simp_all
    · rcases List.mem_pair.mp h with rfl | rfl <;> rfl

/-- A quantifier keeps the label of the item that it changes. -/
theorem mem_labels_repeated {x : Item} {l : Label} :
    l ∈ (repeated c x).map Item.label ↔ l = x.label := by
  constructor
  · intro h
    obtain ⟨y, hy, rfl⟩ := List.mem_map.mp h
    exact label_of_mem_repeated hy
  · rintro rfl
    obtain ⟨y, ys, hys⟩ := List.exists_cons_of_ne_nil (repeated_ne_nil c x)
    have hy : y ∈ repeated c x := by simp [hys]
    exact List.mem_map.mpr ⟨y, hy, label_of_mem_repeated hy⟩

theorem atom_eq_letter : atom c = .letter d ↔ c = d ∧ c ≠ '.' := by
  rw [atom]
  split
  · next h => simp [h]
  · next h => simp [h]

/-- One more character adds its own name, if it has one, and loses none. -/
theorem mem_labels_push (h : push stack index c = .ok next) :
    .letter d ∈ next.map Item.label ↔
      .letter d ∈ stack.map Item.label ∨ d = c ∧ isQuantifier c = false ∧ c ≠ '.' := by
  cases hc : isQuantifier c with
  | false =>
    rw [push_atom hc] at h
    obtain rfl := Except.ok.inj h
    rw [List.map_cons, List.mem_cons, eq_comm, atom_eq_letter]
    grind
  | true =>
    cases stack with
    | nil =>
      rw [push_nil_quantifier hc] at h
      cases h
    | cons x below =>
      rw [push_quantifier hc] at h
      obtain rfl := Except.ok.inj h
      rw [List.map_append, List.mem_append, mem_labels_repeated]
      simp

theorem mem_labels_pushAll (h : pushAll stack index cs = .ok next) :
    .letter d ∈ next.map Item.label ↔
      .letter d ∈ stack.map Item.label ∨ d ∈ cs ∧ isQuantifier d = false ∧ d ≠ '.' := by
  induction cs generalizing stack index with
  | nil =>
    obtain rfl := Except.ok.inj h
    simp
  | cons c cs ih =>
    rw [pushAll] at h
    obtain ⟨top, hpush, hrest⟩ := bind_eq_ok.mp h
    rw [ih hrest, mem_labels_push hpush, List.mem_cons]
    grind

/-- The items name the characters of the text, quantifiers and dots apart. -/
theorem mem_alphabet_of_parse (h : parse s = .ok p) :
    c ∈ p.alphabet ↔ c ∈ s.toList ∧ isQuantifier c = false ∧ c ≠ '.' := by
  have hlabels := mem_labels_pushAll (d := c) (parse_eq_ok.mp h)
  simpa [mem_alphabet] using hlabels

theorem mem_alphabet_append :
    c ∈ alphabet ⟨p.items ++ q.items⟩ ↔ c ∈ p.alphabet ∨ c ∈ q.alphabet := by
  simp only [mem_alphabet, List.mem_append, or_and_right, exists_or]

end Pattern

namespace Automaton

open Pattern

variable {s t : String} {k : Option Kind} {e : LoadError}

/-- Compiling fails if reading does, and for no other reason. -/
theorem ofPatternText_eq_error_iff :
    ofPatternText s k = .error e ↔ ∃ e', parse s = .error e' ∧ e = .pattern e' := by
  cases hs : parse s with
  | error e' => simp [ofPatternText, hs, eq_comm]
  | ok p =>
    obtain ⟨a, ha, -⟩ := exists_ofPattern hs (k.getD .dfa)
    simp [ofPatternText, hs, ha, Except.mapError]

/-- **Patterns are read part by part, and fail at the start or not at all.** A text is refused
exactly if its first character is a quantifier, and then for that quantifier at that place. The same
texts are refused, for the same reason, when they are compiled to any kind. A text that is read can
be followed by any that does not start with a quantifier: the items of the second come after those
of the first, and they name the characters that either does. These are the characters of the text
that are neither quantifiers nor dots. -/
theorem ofPatternText_compositional :
    (∀ s e, parse s = .error e ↔
      ∃ c cs, s.toList = c :: cs ∧ (c = '*' ∨ c = '+' ∨ c = '?') ∧ e = ⟨c, 0⟩) ∧
    (∀ s k e, ofPatternText s k = .error e ↔
      ∃ c cs, s.toList = c :: cs ∧ (c = '*' ∨ c = '+' ∨ c = '?') ∧ e = .pattern ⟨c, 0⟩) ∧
    (∀ s p k, parse s = .ok p → ∃ a, ofPattern k p = .ok a) ∧
    (∀ s t p, parse s = .ok p → (∀ c ∈ t.toList.head?, c ≠ '*' ∧ c ≠ '+' ∧ c ≠ '?') →
      ∃ q, parse t = .ok q ∧ parse (s ++ t) = .ok ⟨p.items ++ q.items⟩ ∧
        ∀ c, c ∈ Pattern.alphabet ⟨p.items ++ q.items⟩ ↔ c ∈ p.alphabet ∨ c ∈ q.alphabet) ∧
    ∀ s p, parse s = .ok p → ∀ c, c ∈ p.alphabet ↔
      c ∈ s.toList ∧ c ≠ '.' ∧ c ≠ '*' ∧ c ≠ '+' ∧ c ≠ '?' := by
  have hnot (c : Char) : isQuantifier c = false ↔ c ≠ '*' ∧ c ≠ '+' ∧ c ≠ '?' := by
    rw [← Bool.not_eq_true, isQuantifier_iff, not_or, not_or]
  refine ⟨fun s e => ?_, fun s k e => ?_, fun s p k hs => ?_, fun s t p hs ht => ?_,
    fun s p hs c => ?_⟩
  · simp only [parse_eq_error_iff, isQuantifier_iff]
  · simp only [ofPatternText_eq_error_iff, parse_eq_error_iff, isQuantifier_iff]
    constructor
    · rintro ⟨_, ⟨c, cs, hs, hc, rfl⟩, rfl⟩
      exact ⟨c, cs, hs, hc, rfl⟩
    · rintro ⟨c, cs, hs, hc, rfl⟩
      exact ⟨_, ⟨c, cs, hs, hc, rfl⟩, rfl⟩
  · obtain ⟨a, ha, -⟩ := exists_ofPattern hs k
    exact ⟨a, ha⟩
  · obtain ⟨q, hq, happend⟩ := parse_append hs fun c hc => (hnot c).mpr (ht c hc)
    exact ⟨q, hq, happend, fun c => mem_alphabet_append⟩
  · rw [mem_alphabet_of_parse hs, hnot]
    exact and_congr_right fun _ => and_comm

/-- The pattern `a+.?`: the letter `a` once, then any number of times, then at most one
character. -/
def someThenAny : Pattern :=
  ⟨[⟨.letter 'a', .one⟩, ⟨.letter 'a', .many⟩, ⟨.any, .optional⟩]⟩

theorem ofPatternText_compositional_someThenAny :
    parse "*a" = .error ⟨'*', 0⟩ ∧ parse "a+.?" = .ok someThenAny ∧
    (∀ c ∈ "b*+a".toList.head?, c ≠ '*' ∧ c ≠ '+' ∧ c ≠ '?') ∧
    (∃ a, ofPattern .nfa someThenAny = .ok a) ∧
    (∃ q, parse "b*+a" = .ok q ∧
      parse ("a+.?" ++ "b*+a") = .ok ⟨someThenAny.items ++ q.items⟩ ∧
      ∀ c, c ∈ Pattern.alphabet ⟨someThenAny.items ++ q.items⟩ ↔
        c ∈ someThenAny.alphabet ∨ c ∈ q.alphabet) ∧
    ∀ c, c ∈ someThenAny.alphabet ↔
      c ∈ "a+.?".toList ∧ c ≠ '.' ∧ c ≠ '*' ∧ c ≠ '+' ∧ c ≠ '?' := by
  have hparse : parse "a+.?" = .ok someThenAny := rfl
  have hstart : ∀ c ∈ "b*+a".toList.head?, c ≠ '*' ∧ c ≠ '+' ∧ c ≠ '?' := by
    intro c hc
    obtain rfl : 'b' = c := Option.some.inj hc
    decide
  obtain ⟨hrefused, -, hcompiles, happend, halphabet⟩ := ofPatternText_compositional
  exact ⟨(hrefused "*a" _).mpr ⟨'*', ['a'], rfl, .inl rfl, rfl⟩, hparse, hstart,
    hcompiles _ _ .nfa hparse, happend _ _ _ hparse hstart, halphabet _ _ hparse⟩

end Automaton

end Acceptor
