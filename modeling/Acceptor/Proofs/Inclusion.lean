import Acceptor.Machine.Coverage
import Acceptor.Proofs.Validation

/-!
# The search over pairs decides inclusion

Two walks that read the same word stay abreast as a pair of states, the right one absent once its
walk has ended. The search lists every pair that two walks can come to. It reads labels and not
characters: the wildcard stands for all characters outside the alphabet, so the two views agree as
long as there is such a character.

## Main results

* `Machine.allIncluded_iff`: the search succeeds exactly if no pair it comes to breaks the
  inclusion.
* `Machine.pairReached_iff`: the pairs are those that walks on the same word come to.
* `Machine.included_iff`: the search decides the inclusion of languages.
* `Machine.included_decides`: the search ends, in the bounds that its keys promise, and decides.
-/

namespace Acceptor

namespace Machine

variable {m : Machine} {k : Kind} {p q r : Nat} {l : Label} {c : Char} {w : List Char}
  {starts : List (Nat × Nat)} {x y : Nat × Option Nat}

/-! ### Walks -/

theorem isFinal_iff : m.isFinal q ↔ q ∈ m.finals := by simp [isFinal]

theorem walk?_cons (m : Machine) (q : Nat) (c : Char) (w : List Char) :
    m.walk? q (c :: w) = (m.follow? q (.letter c)).bind (m.walk? · w) := by
  simp [walk?, List.foldlM_cons]

theorem walksFrom_iff : m.walksFrom q w ↔ ∃ r, m.walk? q w = some r ∧ r ∈ m.finals := by
  simp [walksFrom, Option.any_eq_true, isFinal_iff]

theorem walksFrom_nil : m.walksFrom q [] ↔ q ∈ m.finals := by
  simp [walksFrom_iff, walk?]

theorem walksFrom_cons : m.walksFrom q (c :: w) ↔
    ∃ r, m.follow? q (.letter c) = some r ∧ m.walksFrom r w := by
  simp only [walksFrom_iff, walk?_cons, Option.bind_eq_some_iff]
  constructor
  · rintro ⟨s, ⟨r, hr, hs⟩, hfinal⟩
    exact ⟨r, hr, s, hs, hfinal⟩
  · rintro ⟨r, hr, s, hs, hfinal⟩
    exact ⟨s, ⟨r, hr, hs⟩, hfinal⟩

theorem follow?_any (m : Machine) (q : Nat) :
    m.follow? q .any = (m.graph.targets q .any).head? := by
  rw [follow?]
  cases m.graph.targets q .any <;> rfl

theorem mem_targets_of_follow? (h : m.follow? q l = some r) :
    r ∈ m.graph.targets q l ∨ r ∈ m.graph.targets q .any :=
  List.mem_append.mp (List.mem_of_mem_head? h)

theorem follow?_lt (hconfined : m.graph.confined) (h : m.follow? q l = some r) : r < m.size :=
  (mem_targets_of_follow? h).elim (Graph.confined_iff.mp hconfined q l r)
    (Graph.confined_iff.mp hconfined q .any r)

/-! ### Labels for characters -/

theorem mem_walkLabels : l ∈ m.walkLabels ↔ (∃ c ∈ m.alphabet, l = .letter c) ∨ l = .any := by
  rw [walkLabels, List.mem_append, List.mem_map, List.mem_singleton]
  exact or_congr (exists_congr fun c => and_congr_right fun _ => eq_comm) .rfl

/-- A character outside the alphabet takes the wildcard. -/
theorem follow?_of_not_mem (hm : m.Meets k) (hc : c ∉ m.alphabet) (q : Nat) :
    m.follow? q (.letter c) = m.follow? q .any := by
  rw [follow?_any, follow?, hm.eq_nil_of_not_mem hc, List.nil_append]

theorem exists_walkLabel (hm : m.Meets k) (c : Char) :
    ∃ l ∈ m.walkLabels, ∀ q, m.follow? q (.letter c) = m.follow? q l := by
  by_cases hc : c ∈ m.alphabet
  · exact ⟨.letter c, mem_walkLabels.mpr (.inl ⟨c, hc, rfl⟩), fun _ => rfl⟩
  · exact ⟨.any, mem_walkLabels.mpr (.inr rfl), follow?_of_not_mem hm hc⟩

theorem exists_char (hm : m.Meets k) (hmiss : ∃ c, c ∉ m.alphabet) (hl : l ∈ m.walkLabels) :
    ∃ c, ∀ q, m.follow? q (.letter c) = m.follow? q l := by
  rcases mem_walkLabels.mp hl with ⟨c, -, rfl⟩ | rfl
  · exact ⟨c, fun _ => rfl⟩
  · obtain ⟨c, hc⟩ := hmiss
    exact ⟨c, follow?_of_not_mem hm hc⟩

/-! ### The pairs that the search comes to -/

/-- A pair of states that two walks from one of the given pairs come to. -/
def PairReached (m : Machine) (starts : List (Nat × Nat)) : Nat × Option Nat → Prop :=
  Search.Reach (some ∘ m.pairSteps m.turnTable) (starts.map fun p => (p.1, some p.2))

theorem PairReached.start {s : Nat × Nat} (h : s ∈ starts) :
    m.PairReached starts (s.1, some s.2) :=
  .root (List.mem_map.mpr ⟨s, h, rfl⟩)

theorem PairReached.step (h : m.PairReached starts x) (hl : l ∈ m.walkLabels)
    (hleft : m.follow? x.1 l = some y.1) (hright : x.2.bind (m.follow? · l) = y.2) :
    m.PairReached starts y :=
  Search.Reach.step h rfl (mem_pairSteps.mpr ⟨l, hl, hleft, hright⟩)

/-- What holds of the given pairs and is kept by every step holds of all pairs that are reached. -/
theorem PairReached.induct {P : Nat → Option Nat → Prop}
    (hstart : ∀ s ∈ starts, P s.1 (some s.2))
    (hstep : ∀ a b l r, P a b → l ∈ m.walkLabels → m.follow? a l = some r →
      P r (b.bind (m.follow? · l)))
    (h : m.PairReached starts x) : P x.1 x.2 := by
  induction h with
  | root hr =>
    obtain ⟨s, hs, rfl⟩ := List.mem_map.mp hr
    exact hstart s hs
  | step _ hys hy ih =>
    cases hys
    obtain ⟨l, hl, hleft, hright⟩ := mem_pairSteps.mp hy
    exact hright ▸ hstep _ _ l _ ih hl hleft

/-- The given pairs are pairs of states. -/
def StatePairs (m : Machine) (starts : List (Nat × Nat)) : Prop :=
  ∀ s ∈ starts, s.1 < m.size ∧ s.2 < m.size

variable (hconfined : m.graph.confined)

include hconfined

theorem PairReached.lt (hstarts : m.StatePairs starts) (h : m.PairReached starts x) :
    x.1 < m.size ∧ ∀ q ∈ x.2, q < m.size := by
  refine PairReached.induct (P := fun a b => a < m.size ∧ ∀ q ∈ b, q < m.size) ?_ ?_ h
  · intro s hs
    refine ⟨(hstarts s hs).1, fun q hq => ?_⟩
    obtain rfl := Option.mem_some.mp hq
    exact (hstarts s hs).2
  · intro a b l r _ _ hr
    refine ⟨follow?_lt hconfined hr, fun q hq => ?_⟩
    obtain ⟨b', -, hb'⟩ := Option.bind_eq_some_iff.mp hq
    exact follow?_lt hconfined hb'

theorem pairs?_spec (hstarts : m.StatePairs starts) :
    ∃ out, m.pairs? starts = some out ∧ ∀ x, x ∈ out ↔ m.PairReached starts x := by
  have hlt {x} (h : m.PairReached starts x) := h.lt hconfined hstarts
  refine Search.exists_explore? (fun _ _ => rfl)
    (fun x y hx hy hkey => pairKey_inj (hlt hx).2 (hlt hy).2 hkey) fun xs hxs hn => ?_
  -- the keys of the pairs found are different numbers below the fuel
  rw [← List.length_map (pairKey m.size)]
  refine Search.length_le_of_lt hn fun i hi => ?_
  obtain ⟨x, hx, rfl⟩ := List.mem_map.mp hi
  exact pairKey_lt (hlt (hxs x hx)).1 (hlt (hxs x hx)).2

theorem allIncluded_iff (hstarts : m.StatePairs starts) : m.allIncluded starts ↔
    ∀ x, m.PairReached starts x → x.1 ∈ m.finals → ∃ q ∈ x.2, q ∈ m.finals := by
  obtain ⟨out, hout, hmem⟩ := pairs?_spec hconfined hstarts
  simp only [allIncluded, hout, Option.any_some, List.all_eq_true, hmem]
  refine forall_congr' fun x => imp_congr_right fun _ => ?_
  rw [pairAgrees, Bool.or_eq_true, Option.any_eq_true]
  simp only [decide_eq_true_eq, mem_finalSet, Option.mem_def]
  exact Decidable.imp_iff_not_or.symm

omit hconfined in
theorem pairReached_iff_single : m.PairReached starts x ↔
    ∃ s ∈ starts, m.PairReached [s] x := by
  constructor
  · intro h
    refine PairReached.induct (P := fun a b => ∃ s ∈ starts, m.PairReached [s] (a, b))
      (fun s hs => ⟨s, hs, .start (List.mem_singleton_self s)⟩) ?_ h
    rintro a b l r ⟨s, hs, h⟩ hl hr
    exact ⟨s, hs, h.step hl hr rfl⟩
  · rintro ⟨s, hs, h⟩
    refine PairReached.induct (P := fun a b => m.PairReached starts (a, b)) ?_
      (fun _ _ _ _ h hl hr => h.step hl hr rfl) h
    intro t ht
    obtain rfl := List.mem_singleton.mp ht
    exact .start hs

/-- One search from several pairs tells as much as one from each. -/
theorem allIncluded_iff_forall (hstarts : m.StatePairs starts) :
    m.allIncluded starts ↔ ∀ s ∈ starts, m.included s.1 s.2 := by
  have hone (s : Nat × Nat) (hs : s ∈ starts) : m.included s.1 s.2 ↔
      ∀ x, m.PairReached [s] x → x.1 ∈ m.finals → ∃ q ∈ x.2, q ∈ m.finals :=
    allIncluded_iff hconfined fun t ht => List.mem_singleton.mp ht ▸ hstarts s hs
  rw [allIncluded_iff hconfined hstarts]
  constructor
  · intro h s hs
    exact (hone s hs).mpr fun x hx => h x (pairReached_iff_single.mpr ⟨s, hs, hx⟩)
  · intro h x hx
    obtain ⟨s, hs, hx⟩ := pairReached_iff_single.mp hx
    exact (hone s hs).mp (h s hs) x hx

omit hconfined

/-! ### Pairs and words -/

theorem PairReached.walk (hm : m.Meets k) (h : m.PairReached starts x)
    (hw : m.walk? x.1 w = some r) : m.PairReached starts (r, x.2.bind (m.walk? · w)) := by
  induction w generalizing x with
  | nil =>
    obtain rfl : x.1 = r := Option.some.inj hw
    simpa [walk?] using h
  | cons c w ih =>
    rw [walk?_cons] at hw
    obtain ⟨a, ha, hw⟩ := Option.bind_eq_some_iff.mp hw
    obtain ⟨l, hl, hfollow⟩ := exists_walkLabel hm c
    have hnext : m.PairReached starts (a, x.2.bind (m.follow? · l)) :=
      h.step hl (hfollow x.1 ▸ ha) rfl
    have hwalk := ih hnext hw
    rw [Option.bind_assoc] at hwalk
    simpa only [walk?_cons, hfollow] using hwalk

theorem walk?_concat (m : Machine) (q : Nat) (w : List Char) (c : Char) :
    m.walk? q (w ++ [c]) = (m.walk? q w).bind (m.follow? · (.letter c)) := by
  simp [walk?, List.foldlM_append]

/-- The search comes to the pairs that walks on the same word come to. -/
theorem pairReached_iff (hm : m.Meets k) (hmiss : ∃ c, c ∉ m.alphabet) :
    m.PairReached [(p, q)] x ↔ ∃ w, m.walk? p w = some x.1 ∧ m.walk? q w = x.2 := by
  constructor
  · intro h
    refine PairReached.induct (P := fun a b => ∃ w, m.walk? p w = some a ∧ m.walk? q w = b)
      ?_ ?_ h
    · intro s hs
      obtain rfl := List.mem_singleton.mp hs
      exact ⟨[], rfl, rfl⟩
    · rintro a b l r ⟨w, hp, hq⟩ hl hr
      obtain ⟨c, hc⟩ := exists_char hm hmiss hl
      refine ⟨w ++ [c], ?_, ?_⟩
      · rw [walk?_concat, hp, Option.bind_some, hc, hr]
      · rw [walk?_concat, hq]
        simp only [hc]
  · rintro ⟨w, hp, hq⟩
    have hwalk := (PairReached.start (m := m) (List.mem_singleton_self (p, q))).walk hm hp
    rwa [Option.bind_some, hq] at hwalk

/-- **The search over pairs decides inclusion.** -/
theorem included_iff (hm : m.Meets k) (hmiss : ∃ c, c ∉ m.alphabet) (hp : p < m.size)
    (hq : q < m.size) :
    m.included p q ↔ ∀ w, m.walksFrom p w → m.walksFrom q w := by
  have hstarts : m.StatePairs [(p, q)] := fun s hs => List.mem_singleton.mp hs ▸ ⟨hp, hq⟩
  rw [included, allIncluded_iff hm.confined hstarts]
  simp only [pairReached_iff hm hmiss, walksFrom_iff]
  constructor
  · rintro h w ⟨r, hr, hf⟩
    exact h (r, m.walk? q w) ⟨w, hr, rfl⟩ hf
  · rintro h ⟨a, b⟩ ⟨w, ha, rfl⟩ hf
    exact h w ⟨a, ha, hf⟩

/-! ### The search as a whole -/

/-- A pair of states, the right one possibly absent. -/
def IsPair (m : Machine) (x : Nat × Option Nat) : Prop := x.1 < m.size ∧ ∀ r ∈ x.2, r < m.size

/-- Pairs one step on from what the search has found have been found as well. -/
theorem PairReached.of_mem_pairSteps (h : m.PairReached starts x)
    (hy : y ∈ m.pairSteps m.turnTable x) : m.PairReached starts y := by
  obtain ⟨l, hl, hleft, hright⟩ := mem_pairSteps.mp hy
  exact h.step hl hleft hright

/-- **The search over pairs ends and decides inclusion.** In a machine with the shape of a
deterministic automaton whose alphabet misses some character, it comes to each pair that walks on
the same word come to, once, and it succeeds exactly if every word accepted from the left state is
accepted from the right one. The keys that it computes are below the number of pairs, and keys tell
pairs apart. -/
theorem included_decides (hvalid : m.validate .dfa = .ok ()) (hmiss : ∃ c, c ∉ m.alphabet)
    (hp : p < m.size) (hq : q < m.size) :
    (m.included p q ↔ ∀ w, m.walksFrom p w → m.walksFrom q w) ∧
    (∃ out, m.pairs? [(p, q)] = some out ∧ (out.map (pairKey m.size)).Nodup ∧
      (∀ x, x ∈ out ↔ ∃ w, m.walk? p w = some x.1 ∧ m.walk? q w = x.2) ∧
      ∀ x ∈ out, ∀ y ∈ x :: m.pairSteps m.turnTable x,
        m.IsPair y ∧ pairKey m.size y < m.size * (m.size + 1)) ∧
    ∀ x y, m.IsPair x → m.IsPair y → pairKey m.size x = pairKey m.size y → x = y := by
  have hm := validate_eq_ok_iff.mp hvalid
  have hstarts : m.StatePairs [(p, q)] := fun s hs => List.mem_singleton.mp hs ▸ ⟨hp, hq⟩
  have hbound {y} (hy : m.PairReached [(p, q)] y) :
      m.IsPair y ∧ pairKey m.size y < m.size * (m.size + 1) := by
    have hpair : m.IsPair y := hy.lt hm.confined hstarts
    exact ⟨hpair, pairKey_lt hpair.1 hpair.2⟩
  obtain ⟨out, hout, hmem⟩ := pairs?_spec hm.confined hstarts
  refine ⟨included_iff hm hmiss hp hq, ⟨out, hout, Search.explore?_nodup hout, ?_, ?_⟩, ?_⟩
  · intro x
    rw [hmem, pairReached_iff hm hmiss]
  · intro x hx y hy
    have hreached := (hmem x).mp hx
    rcases List.mem_cons.mp hy with rfl | hy
    · exact hbound hreached
    · exact hbound (hreached.of_mem_pairSteps hy)
  · intro x y hx hy hkey
    exact pairKey_inj hx.2 hy.2 hkey

/-- Two states with the letter `a`, both final. Only the first has a wildcard edge, so walks from the
second end at every other character. -/
def lopsided : Machine where
  graph := ⟨#[⟨"p", .ofList [(.letter 'a', 0), (.any, 1)]⟩, ⟨"q", .ofList [(.letter 'a', 1)]⟩]⟩
  initial := [0]
  finals := [0, 1]
  alphabet := .ofList ['a']

theorem included_decides_lopsided :
    lopsided.validate .dfa = .ok () ∧ 'b' ∉ lopsided.alphabet ∧ 1 < lopsided.size ∧
      0 < lopsided.size ∧ lopsided.included 0 1 = false ∧
      (lopsided.included 1 0 ↔ ∀ w, lopsided.walksFrom 1 w → lopsided.walksFrom 0 w) ∧
      (∃ out, lopsided.pairs? [(1, 0)] = some out ∧
        (out.map (pairKey lopsided.size)).Nodup ∧
        (∀ x, x ∈ out ↔ ∃ w, lopsided.walk? 1 w = some x.1 ∧ lopsided.walk? 0 w = x.2) ∧
        ∀ x ∈ out, ∀ y ∈ x :: lopsided.pairSteps lopsided.turnTable x,
          lopsided.IsPair y ∧ pairKey lopsided.size y < lopsided.size * (lopsided.size + 1)) ∧
      ∀ x y, lopsided.IsPair x → lopsided.IsPair y →
        pairKey lopsided.size x = pairKey lopsided.size y → x = y :=
  have hvalid : lopsided.validate .dfa = .ok () := rfl
  have hmiss : 'b' ∉ lopsided.alphabet := by decide
  have hsize : 1 < lopsided.size ∧ 0 < lopsided.size := by decide
  have hrefused : lopsided.included 0 1 = false := by decide +kernel
  ⟨hvalid, hmiss, hsize.1, hsize.2, hrefused,
    included_decides hvalid ⟨'b', hmiss⟩ hsize.1 hsize.2⟩

end Machine

end Acceptor
