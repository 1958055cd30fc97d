import Acceptor.Proofs.DeterminizedTwice
import Acceptor.Proofs.NormalForm
import Acceptor.Proofs.PatternText

/-!
# Determinization at its worst

The pattern `.*a` with `n` dots after it asks whether the last character but `n` is the letter `a`.
A machine that guesses this character needs `n + 2` states: one that stays, and a row of `n + 1`
along which every guess is carried on. A deterministic machine has to remember for each of the last
`n + 1` characters whether it was the letter, and so has `2 ^ (n + 1)` states.

The sets that tracking comes to are exactly those with the staying state. One direction is an
invariant of moves. For the other, a set is the move of the set that lies one step behind it, with
the letter if it holds the first state of the row and with another character if not. The set behind
holds smaller states only, so the initial set is behind all of them.

## Main results

* `Machine.Recalls.setReached_iff`: the sets that are reached.
* `IdSet.length_eq_two_pow`: how many of them there are.
* `Machine.Recalls.readsFrom_replicate_iff`: the words that tell them apart.
* `Automaton.ofPatternText_recalling`: the sizes of the automata of the pattern.
-/

namespace Acceptor

/-- There are `2 ^ n` sets of numbers up to `n` that hold zero. -/
theorem IdSet.length_eq_two_pow {ss : List IdSet} {n : Nat} (hn : ss.Nodup)
    (h : ∀ s, s ∈ ss ↔ 0 ∈ s ∧ ∀ q ∈ s, q ≤ n) : ss.length = 2 ^ n := by
  -- a set is determined by the numbers whose successors it holds
  let below (s : IdSet) : Finset Nat := (Finset.range n).filter (· + 1 ∈ s)
  have hinj : ∀ s ∈ ss, ∀ t ∈ ss, below s = below t → s = t := by
    intro s hs t ht heq
    obtain ⟨hs0, hsn⟩ := (h s).mp hs
    obtain ⟨ht0, htn⟩ := (h t).mp ht
    refine IdSet.ext_mem fun q => ?_
    cases q with
    | zero => exact iff_of_true hs0 ht0
    | succ q =>
      have hq := congrArg (q ∈ ·) heq
      simp only [below, Finset.mem_filter, Finset.mem_range, eq_iff_iff] at hq
      exact ⟨fun hmem => (hq.mp ⟨hsn _ hmem, hmem⟩).2, fun hmem => (hq.mpr ⟨htn _ hmem, hmem⟩).2⟩
  have himage : (ss.map below).toFinset = (Finset.range n).powerset := by
    ext t
    rw [List.mem_toFinset, List.mem_map, Finset.mem_powerset]
    constructor
    · rintro ⟨s, -, rfl⟩
      exact Finset.filter_subset _ _
    · intro ht
      refine ⟨.ofList (0 :: t.toList.map (· + 1)), (h _).mpr ⟨by simp, fun q hq => ?_⟩, ?_⟩
      · rcases List.mem_cons.mp (IdSet.mem_ofList.mp hq) with rfl | hq
        · exact Nat.zero_le n
        · obtain ⟨p, hp, rfl⟩ := List.mem_map.mp hq
          exact Finset.mem_range.mp (ht (Finset.mem_toList.mp hp))
      · ext q
        have hrange : q ∈ t → q < n := fun hq => Finset.mem_range.mp (ht hq)
        simpa [below] using hrange
  calc ss.length = (ss.map below).toFinset.card := by
        rw [List.toFinset_card_of_nodup (hn.map_on hinj), List.length_map]
    _ = 2 ^ n := by rw [himage, Finset.card_powerset, Finset.card_range]

namespace Pattern

variable {n i q r : Nat} {l : Label}

/-- Any number of characters, the letter `a`, and then `n` characters. -/
def recalling (n : Nat) : Pattern :=
  ⟨⟨.any, .many⟩ :: ⟨.letter 'a', .one⟩ :: List.replicate n ⟨.any, .one⟩⟩

theorem pushAll_dots (stack : List Item) (index n : Nat) :
    pushAll stack index (List.replicate n '.') =
      .ok (List.replicate n ⟨.any, .one⟩ ++ stack) := by
  induction n generalizing stack index with
  | zero => rfl
  | succ n ih =>
    have hdot : push stack index '.' = .ok (⟨.any, .one⟩ :: stack) := rfl
    rw [List.replicate_succ, pushAll_cons hdot, ih, List.replicate_succ', List.append_assoc]
    rfl

theorem parse_recalling (n : Nat) :
    parse (".*a" ++ .ofList (List.replicate n '.')) = .ok (recalling n) := by
  have hstart : pushAll [] 0 ['.', '*', 'a'] = .ok [⟨.letter 'a', .one⟩, ⟨.any, .many⟩] := rfl
  have htext : (".*a" ++ String.ofList (List.replicate n '.')).toList =
      ['.', '*', 'a'] ++ List.replicate n '.' := by simp
  rw [parse_eq_ok, htext, pushAll_append hstart, pushAll_dots]
  simp [recalling]

theorem lastState_replicate (i n : Nat) :
    lastState i (List.replicate n ⟨.any, .one⟩) = i + n := by
  induction n generalizing i with
  | zero => rfl
  | succ n ih =>
    rw [List.replicate_succ, lastState, ih]
    simp only [Item.advance]
    omega

theorem mem_arrows_replicate : (q, l, r) ∈ arrows i (List.replicate n ⟨.any, .one⟩) ↔
    l = .any ∧ i ≤ q ∧ q < i + n ∧ r = q + 1 := by
  induction n generalizing i with
  | zero =>
    simp only [List.replicate_zero, arrows, List.not_mem_nil, false_iff]
    omega
  | succ n ih =>
    rw [List.replicate_succ, mem_arrows_cons, show Item.advance _ _ = 1 from rfl, ih]
    simp only [Item.arrows, List.mem_singleton, Prod.mk.injEq]
    constructor
    · rintro (⟨rfl, rfl, rfl⟩ | ⟨rfl, hle, hlt, rfl⟩)
      · exact ⟨rfl, Nat.le_refl q, by omega, rfl⟩
      · exact ⟨rfl, by omega, by omega, rfl⟩
    · rintro ⟨rfl, hle, hlt, rfl⟩
      by_cases hq : q = i
      · exact .inl ⟨hq, rfl, by rw [hq]⟩
      · exact .inr ⟨rfl, by omega, by omega, rfl⟩

theorem lastState_recalling (n : Nat) : lastState 0 (recalling n).items = n + 1 := by
  show lastState 1 (List.replicate n ⟨.any, .one⟩) = n + 1
  rw [lastState_replicate, Nat.add_comm]

end Pattern

namespace Machine

variable {m e : Machine} {n q r : Nat} {l : Label} {s t : IdSet} {sets : List IdSet}

/-- A machine that recalls whether the last character but `n` was the letter `a`: a state that stays
and a row of `n + 1` states, which the letter leads to and any character leads along. -/
structure Recalls (m : Machine) (n : Nat) : Prop where
  /-- There are `n + 1` states besides the one that stays. -/
  size : m.size = n + 2
  /-- The one that stays is initial. -/
  initial : ∀ q, q ∈ m.initial ↔ q = 0
  /-- The last of the row is final. -/
  finals : ∀ q, q ∈ m.finals ↔ q = n + 1
  /-- Any character stays or leads along the row, and the letter leads to its first state. -/
  targets : ∀ q l r, r ∈ m.graph.targets q l ↔
    l = .any ∧ (q = 0 ∧ r = 0 ∨ 0 < q ∧ q ≤ n ∧ r = q + 1) ∨ l = .letter 'a' ∧ q = 0 ∧ r = 1
  /-- There are no other letters. -/
  alphabet : ∀ c, c ∈ m.alphabet ↔ c = 'a'

theorem recalls_machine (n : Nat) : (Pattern.recalling n).machine.Recalls n := by
  have hlast := Pattern.lastState_recalling n
  refine ⟨by rw [Pattern.size_machine, hlast], fun q => ?_, fun q => ?_, fun q l r => ?_,
    fun c => ?_⟩
  · simp [Pattern.machine]
  · simp [Pattern.machine, hlast]
  · have harrows : Pattern.arrows 0 (Pattern.recalling n).items = (0, .any, 0) ::
      (0, .letter 'a', 1) :: Pattern.arrows 1 (List.replicate n ⟨.any, .one⟩) := rfl
    rw [Pattern.mem_targets_machine, harrows, List.mem_cons, List.mem_cons,
      Pattern.mem_arrows_replicate]
    simp only [Prod.mk.injEq]
    grind
  · show c ∈ (Pattern.recalling n).alphabet ↔ c = 'a'
    rw [Pattern.mem_alphabet]
    simp [Pattern.recalling, List.mem_replicate, eq_comm]

theorem Recalls.of_sameEdges (h : m.Recalls n) (he : m.SameEdges e) : e.Recalls n where
  size := he.size.trans h.size
  initial q := (he.initial q).trans (h.initial q)
  finals q := (he.finals q).trans (h.finals q)
  targets q l r := (he.targets q l r).trans (h.targets q l r)
  alphabet c := by rw [he.alphabet, h.alphabet]

namespace Recalls

variable (h : m.Recalls n)

include h

theorem no_epsilon (q : Nat) : m.graph.targets q .epsilon = [] :=
  List.eq_nil_iff_forall_not_mem.mpr fun r hr => by simpa using (h.targets q .epsilon r).mp hr

theorem mem_readLabels (hm : m.Meets .enfa) (hr : r ∈ m.graph.targets q l) : l ∈ m.readLabels := by
  refine hm.mem_readLabels hr ?_
  rintro rfl
  simp [h.no_epsilon] at hr

/-! ### The sets that are reached -/

theorem mem_image_any : r ∈ m.graph.image s .any ↔
    0 ∈ s ∧ r = 0 ∨ ∃ q ∈ s, 0 < q ∧ q ≤ n ∧ r = q + 1 := by
  simp only [Graph.mem_image, h.targets]
  grind

theorem mem_reading_letter : r ∈ m.graph.reading s 'a' ↔
    r ∈ m.graph.image s .any ∨ 0 ∈ s ∧ r = 1 := by
  rw [h.mem_image_any]
  simp only [Graph.mem_reading, Graph.step_eq, List.mem_append, h.targets]
  grind

/-- Moves keep the staying state and lead to states. -/
theorem of_setReached (hs : m.SetReached s) : 0 ∈ s ∧ ∀ q ∈ s, q ≤ n + 1 := by
  induction hs with
  | initial => simp [h.initial]
  | @letter s c _ hc ih =>
    obtain rfl := (h.alphabet c).mp hc
    simp only [h.mem_reading_letter, h.mem_image_any]
    grind
  | any _ _ ih =>
    simp only [h.mem_image_any]
    grind

/-- A set lies one move ahead of the set of the predecessors of its members. -/
theorem setReached_of_behind (ht : m.SetReached t) (hbehind : ∀ q, q ∈ t ↔ q = 0 ∨ q + 1 ∈ s)
    (hzero : 0 ∈ s) (hle : ∀ q ∈ s, q ≤ n + 1) : m.SetReached s := by
  have hzero' : 0 ∈ t := (hbehind 0).mpr (.inl rfl)
  have himage (q : Nat) : q ∈ m.graph.image t .any ↔ q ∈ s ∧ q ≠ 1 := by
    rw [h.mem_image_any]
    simp only [hbehind]
    constructor
    · rintro (⟨-, rfl⟩ | ⟨p, hp, hpos, -, rfl⟩)
      · exact ⟨hzero, by omega⟩
      · exact ⟨hp.resolve_left (by omega), by omega⟩
    · rintro ⟨hq, hne⟩
      rcases q with _ | _ | q
      · exact .inl ⟨.inl trivial, rfl⟩
      · exact absurd rfl hne
      · have := hle _ hq
        exact .inr ⟨q + 1, .inr hq, by omega, by omega, rfl⟩
  by_cases hone : 1 ∈ s
  · have hmove : m.graph.reading t 'a' = s := by
      refine IdSet.ext_mem fun q => ?_
      rw [h.mem_reading_letter, himage]
      grind
    exact hmove ▸ ht.letter ((h.alphabet 'a').mpr rfl)
  · have hmove : m.graph.image t .any = s := by
      refine IdSet.ext_mem fun q => ?_
      rw [himage]
      grind
    have hany : m.hasWildcard := hasWildcard_iff.mpr ⟨0, 0, (h.targets _ _ _).mpr (by simp)⟩
    exact hmove ▸ ht.any hany

theorem setReached_of_le (hzero : 0 ∈ s) {k : Nat} (hk : k ≤ n + 1) (hle : ∀ q ∈ s, q ≤ k) :
    m.SetReached s := by
  induction k generalizing s with
  | zero =>
    have hinitial : m.initialSet = s := by
      refine IdSet.ext_mem fun q => ?_
      rw [mem_initialSet, h.initial]
      exact ⟨fun hq => hq ▸ hzero, fun hq => Nat.le_zero.mp (hle q hq)⟩
    exact hinitial ▸ .initial
  | succ k ih =>
    have hbehind (q : Nat) : q ∈ IdSet.ofList (s.toList.map (· - 1)) ↔ q = 0 ∨ q + 1 ∈ s := by
      rw [IdSet.mem_ofList, List.mem_map]
      constructor
      · rintro ⟨p, hp, rfl⟩
        rw [IdSet.mem_toList] at hp
        rcases p with _ | p
        · exact .inl rfl
        · exact .inr hp
      · rintro (rfl | hq)
        · exact ⟨0, IdSet.mem_toList.mpr hzero, rfl⟩
        · exact ⟨q + 1, IdSet.mem_toList.mpr hq, rfl⟩
    refine h.setReached_of_behind (ih ((hbehind 0).mpr (.inl rfl)) (by omega) ?_) hbehind hzero
      fun q hq => Nat.le_trans (hle q hq) hk
    intro q hq
    rcases (hbehind q).mp hq with rfl | hq
    · exact Nat.zero_le k
    · exact Nat.le_of_succ_le_succ (hle _ hq)

/-- **The sets that are reached** are those with the staying state. -/
theorem setReached_iff : m.SetReached s ↔ 0 ∈ s ∧ ∀ q ∈ s, q ≤ n + 1 :=
  ⟨h.of_setReached, fun ⟨hzero, hle⟩ => h.setReached_of_le hzero (Nat.le_refl _) hle⟩

theorem size_ofSubsets (hsets : m.Subsets sets) : (m.ofSubsets sets).size = 2 ^ (n + 1) := by
  rw [Machine.size_ofSubsets]
  refine IdSet.length_eq_two_pow hsets.nodup fun s => ?_
  rw [hsets.mem_iff, h.setReached_iff]

/-! ### Words that tell the sets apart -/

/-- Without the letter, a word of the right length is read from one state only. -/
theorem readsFrom_replicate_iff (k : Nat) :
    m.ReadsFrom q (List.replicate k 'b') ↔ 0 < q ∧ q + k = n + 1 := by
  induction k generalizing q with
  | zero =>
    rw [List.replicate_zero, readsFrom_nil h.no_epsilon, h.finals]
    omega
  | succ k ih =>
    have hstep (r : Nat) : r ∈ m.graph.step q 'b' ↔ q = 0 ∧ r = 0 ∨ 0 < q ∧ q ≤ n ∧ r = q + 1 := by
      simp [Graph.step_eq, h.targets]
    rw [List.replicate_succ, readsFrom_cons h.no_epsilon]
    simp only [ih, hstep]
    constructor
    · rintro ⟨r, hr, hpos, hk⟩
      omega
    · rintro ⟨hpos, hk⟩
      exact ⟨q + 1, .inr ⟨hpos, by omega, rfl⟩, by omega, by omega⟩

theorem eq_of_walksFrom_eq (hm : m.Meets .nfa) (hsets : m.Subsets sets) {i j : Nat}
    (hi : i < sets.length) (hj : j < sets.length)
    (heq : ∀ w, (m.ofSubsets sets).walksFrom i w = (m.ofSubsets sets).walksFrom j w) : i = j := by
  have hwords {i : Nat} (hi : i < sets.length) {q : Nat} (hpos : 0 < q) (hq : q ≤ n + 1) :
      q ∈ sets[i] ↔ (m.ofSubsets sets).walksFrom i (List.replicate (n + 1 - q) 'b') := by
    rw [walksFrom_ofSubsets hm hsets (List.getElem?_eq_getElem hi)]
    simp only [h.readsFrom_replicate_iff]
    constructor
    · exact fun hmem => ⟨q, hmem, hpos, by omega⟩
    · rintro ⟨p, hp, -, hpq⟩
      obtain rfl : p = q := by omega
      exact hp
  have hbound {i : Nat} (hi : i < sets.length) : 0 ∈ sets[i] ∧ ∀ q ∈ sets[i], q ≤ n + 1 :=
    h.setReached_iff.mp (hsets.mem_iff.mp (List.getElem_mem hi))
  have hset : sets[i] = sets[j] := by
    refine IdSet.ext_mem fun q => ?_
    by_cases hpos : 0 < q
    · by_cases hq : q ≤ n + 1
      · rw [hwords hi hpos hq, hwords hj hpos hq, heq]
      · exact iff_of_false (fun hmem => hq ((hbound hi).2 q hmem))
          fun hmem => hq ((hbound hj).2 q hmem)
    · obtain rfl : q = 0 := by omega
      exact iff_of_true (hbound hi).1 (hbound hj).1
  exact (List.Nodup.getElem_inj_iff hsets.nodup).mp hset

end Recalls

end Machine

namespace Automaton

open Machine

/-- **Determinization at its worst.** For every `n` the pattern `.*a` with `n` dots after it compiles
to an automaton with empty moves that has `n + 2` states, and still has them when empty moves are
eliminated. Its deterministic automaton has `2 ^ (n + 1)` states, no two of which accept the same
words. So from `N` states of a compiled pattern determinization can make `2 ^ (N - 1)`. -/
theorem ofPatternText_recalling (n : Nat) :
    ∃ e m d, ofPatternText (".*a" ++ .ofList (List.replicate n '.')) (some .enfa) = .ok e ∧
      ofPatternText (".*a" ++ .ofList (List.replicate n '.')) none = .ok d ∧
      e.convert .nfa = .ok m ∧ m.convert .dfa = .ok d ∧
      e.kind = .enfa ∧ m.kind = .nfa ∧ d.kind = .dfa ∧
      e.machine.size = n + 2 ∧ m.machine.size = n + 2 ∧ d.machine.size = 2 ^ (n + 1) ∧
      d.machine.size = 2 ^ (m.machine.size - 1) ∧
      ∀ i < d.machine.size, ∀ j < d.machine.size,
        (∀ w, d.machine.walksFrom i w = d.machine.walksFrom j w) → i = j := by
  have hm := (Pattern.recalling n).meets_machine
  have hrecalls := recalls_machine n
  obtain ⟨m, heliminated, helim, hnfa⟩ := eliminated_eq_ok hm
  have hread (q l r) (hr : r ∈ (Pattern.recalling n).machine.graph.targets q l) :=
    hrecalls.mem_readLabels hm hr
  have h := hrecalls.of_sameEdges (sameEdges_of_eliminate? hread helim)
  obtain ⟨sets, -, hsets, hd⟩ := determinized_eq_ofSubsets hnfa
  have hchecked : checked .enfa (Pattern.recalling n).machine = .ok (Pattern.recalling n).machine :=
    checked_eq_ok.mpr ⟨(check_eq_ok (by simp)).mpr hm, rfl⟩
  have hconvert := convert_enfa_dfa heliminated hd
  refine ⟨⟨.enfa, (Pattern.recalling n).machine⟩, ⟨.nfa, m⟩, ⟨.dfa, m.ofSubsets sets⟩, ?_, ?_,
    convert_enfa_nfa heliminated, convert_nfa_dfa hd, rfl, rfl, rfl, hrecalls.size, h.size,
    h.size_ofSubsets hsets, ?_, fun i hi j hj heq => ?_⟩
  · simp [ofPatternText, Pattern.parse_recalling, ofPattern, hchecked, convert, bind, Except.bind,
      Except.mapError]
  · simp [ofPatternText, Pattern.parse_recalling, ofPattern, hchecked, hconvert, bind, Except.bind,
      Except.mapError]
  · rw [h.size_ofSubsets hsets, h.size]
    rfl
  · rw [Machine.size_ofSubsets] at hi hj
    exact h.eq_of_walksFrom_eq hnfa hsets hi hj heq

end Automaton

end Acceptor
