import Std.Data.TreeSet.Lemmas

/-!
# Breadth-first search

`explore?` lists everything that can be found from some roots by a successor function, in the order
in which a first-in first-out queue finds it. The successor function may fail, and then so does the
search.

## Main results

* `Search.explore?_mem`: what is found is what can be reached.
* `Search.explore?_nodup`: nothing is found twice.
* `Search.explore?_isSome`: a search finishes if successors never fail and the fuel suffices.
* `Search.exists_explore?`: under both conditions, a search finds exactly what can be reached.

## Implementation notes

The items seen so far are remembered by their keys in a search tree; keys tell items apart. The
queue is worked through in rounds, each of which collects the queue of the next one. The queued and
the finished items together list the items seen, each once, so the number of rounds is bounded by
the number of items.
-/

namespace Acceptor

namespace Search

variable {α κ : Type} [Ord κ]

/-- The items of a list whose keys are new, each once, and the keys seen after it. -/
def fresh (key : α → κ) (seen : Std.TreeSet κ) : List α → List α × Std.TreeSet κ
  | [] => ([], seen)
  | x :: xs =>
    if seen.contains (key x) then fresh key seen xs
    else
      let rest := fresh key (seen.insert (key x)) xs
      (x :: rest.1, rest.2)

/-- One round goes through a list of items and collects their fresh successors, in reverse, on top
of those collected so far. -/
def round (key : α → κ) (next : α → Option (List α)) :
    List α → List α → Std.TreeSet κ → Option (List α × Std.TreeSet κ)
  | [], new, seen => some (new, seen)
  | x :: xs, new, seen =>
    match next x with
    | none => none
    | some ys =>
      let found := fresh key seen ys
      round key next xs (found.1.reverse ++ new) found.2

/-- Rounds follow each other until one finds nothing new. The finished items are held in reverse. -/
def rounds (key : α → κ) (next : α → Option (List α)) :
    Nat → List α → List α → Std.TreeSet κ → Option (List α)
  | _, [], done, _ => some done.reverse
  | 0, _ :: _, _, _ => none
  | n + 1, x :: xs, done, seen =>
    match round key next (x :: xs) [] seen with
    | none => none
    | some (new, seen) => rounds key next n new.reverse ((x :: xs).reverse ++ done) seen

/-- Everything reached from the roots in order of discovery, unless a successor list fails or
there are more than `fuel` rounds. -/
def explore? (key : α → κ) (next : α → Option (List α)) (fuel : Nat) (roots : List α) :
    Option (List α) :=
  let start := fresh key ∅ roots
  rounds key next fuel start.1 [] start.2

/-- What can be reached from the roots by steps to a successor. -/
inductive Reach (next : α → Option (List α)) (roots : List α) : α → Prop where
  /-- A root is reached. -/
  | root {x : α} : x ∈ roots → Reach next roots x
  /-- A successor of what is reached is reached. -/
  | step {x y : α} {ys : List α} : Reach next roots x → next x = some ys → y ∈ ys →
    Reach next roots y

/-! ### Fresh items -/

section Fresh

variable [Std.TransOrd κ] {key : α → κ} {seen : Std.TreeSet κ} {xs : List α} {x : α} {k : κ}

theorem mem_of_mem_fresh (h : x ∈ (fresh key seen xs).1) : x ∈ xs ∧ ¬key x ∈ seen := by
  induction xs generalizing seen with
  | nil => simp [fresh] at h
  | cons y ys ih =>
    rw [fresh] at h
    split at h
    · exact ⟨.tail _ (ih h).1, (ih h).2⟩
    · next hy =>
      rcases List.mem_cons.mp h with rfl | h
      · exact ⟨.head _, by simpa using hy⟩
      · exact ⟨.tail _ (ih h).1, fun hk => (ih h).2 (Std.TreeSet.mem_insert.mpr (.inr hk))⟩

theorem mem_seen_fresh [Std.LawfulEqOrd κ] :
    k ∈ (fresh key seen xs).2 ↔ k ∈ seen ∨ ∃ x ∈ (fresh key seen xs).1, key x = k := by
  induction xs generalizing seen with
  | nil => simp [fresh]
  | cons y ys ih =>
    rw [fresh]
    split
    · exact ih
    · simp only [ih, Std.TreeSet.mem_insert, Std.compare_eq_iff_eq, List.mem_cons, exists_eq_or_imp]
      grind

theorem mem_fresh_or_seen [Std.LawfulEqOrd κ] (h : x ∈ xs) : key x ∈ (fresh key seen xs).2 := by
  induction xs generalizing seen with
  | nil => simp at h
  | cons y ys ih =>
    rw [fresh]
    rcases List.mem_cons.mp h with rfl | h
    · split
      · next hx => exact mem_seen_fresh.mpr (.inl (by simpa using hx))
      · exact mem_seen_fresh.mpr (.inl (by simp))
    · split <;> exact ih h

theorem fresh_nodup [Std.LawfulEqOrd κ] : ((fresh key seen xs).1.map key).Nodup := by
  induction xs generalizing seen with
  | nil => simp [fresh]
  | cons y ys ih =>
    rw [fresh]
    split
    · exact ih
    · refine List.nodup_cons.mpr ⟨fun hy => ?_, ih⟩
      obtain ⟨x, hx, hxy⟩ := List.mem_map.mp hy
      exact (mem_of_mem_fresh hx).2 (by simp [hxy])

end Fresh

/-- A repeat-free list of numbers below `n` has at most `n` members. -/
theorem length_le_of_lt {xs : List Nat} {n : Nat} (hn : xs.Nodup) (h : ∀ x ∈ xs, x < n) :
    xs.length ≤ n := by
  have hsub : xs ⊆ List.range n := fun x hx => List.mem_range.mpr (h x hx)
  simpa using hn.length_le_of_subset hsub

/-! ### What a finished search has found -/

section Explore

variable {key : α → κ} {next : α → Option (List α)} {roots : List α} {fuel : Nat}

/-- What holds between two steps of a search from `roots`: the finished and the queued items are
those seen, each once and each reached, and the successors of the finished ones have been seen. -/
structure Between (key : α → κ) (next : α → Option (List α)) (roots queue done : List α)
    (seen : Std.TreeSet κ) : Prop where
  /-- No item is listed twice. -/
  nodup : ((done.reverse ++ queue).map key).Nodup
  /-- The keys seen are those of the items listed. -/
  seen_iff : ∀ k, k ∈ seen ↔ ∃ x ∈ done.reverse ++ queue, key x = k
  /-- Every item is reached. -/
  reach : ∀ x ∈ done.reverse ++ queue, Reach next roots x
  /-- Every root has been seen. -/
  root : ∀ x ∈ roots, key x ∈ seen
  /-- Every successor of a finished item has been seen. -/
  closed : ∀ x ∈ done, ∃ ys, next x = some ys ∧ ∀ y ∈ ys, key y ∈ seen

variable [Std.TransOrd κ] [Std.LawfulEqOrd κ]

theorem Between.start : Between key next roots (fresh key ∅ roots).1 [] (fresh key ∅ roots).2 where
  nodup := by simpa using fresh_nodup
  seen_iff k := by simp [mem_seen_fresh]
  reach x hx := .root (mem_of_mem_fresh (by simpa using hx)).1
  root _ hx := mem_fresh_or_seen hx
  closed _ hx := by simp at hx

theorem Between.step {queue done ys : List α} {seen : Std.TreeSet κ} {x : α}
    (h : Between key next roots (x :: queue) done seen) (hx : next x = some ys) :
    Between key next roots (queue ++ (fresh key seen ys).1) (x :: done) (fresh key seen ys).2 := by
  have hsplit : (x :: done).reverse ++ (queue ++ (fresh key seen ys).1) =
      (done.reverse ++ x :: queue) ++ (fresh key seen ys).1 := by simp
  refine ⟨?_, fun k => ?_, ?_, fun r hr => mem_seen_fresh.mpr (.inl (h.root r hr)), fun z hz => ?_⟩
  · rw [hsplit, List.map_append, List.nodup_append]
    refine ⟨h.nodup, fresh_nodup, fun a ha b hb hab => ?_⟩
    obtain ⟨u, hu, rfl⟩ := List.mem_map.mp ha
    obtain ⟨v, hv, rfl⟩ := List.mem_map.mp hb
    exact (mem_of_mem_fresh hv).2 ((h.seen_iff _).mpr ⟨u, hu, hab⟩)
  · rw [hsplit, mem_seen_fresh, h.seen_iff]
    simp only [List.mem_append]
    grind
  · rw [hsplit]
    intro z hz
    rcases List.mem_append.mp hz with hz | hz
    · exact h.reach z hz
    · exact .step (h.reach x (by simp)) hx (mem_of_mem_fresh hz).1
  · rcases List.mem_cons.mp hz with rfl | hz
    · exact ⟨ys, hx, fun y hy => mem_fresh_or_seen hy⟩
    · obtain ⟨zs, hzs, hall⟩ := h.closed z hz
      exact ⟨zs, hzs, fun y hy => mem_seen_fresh.mpr (.inl (hall y hy))⟩

theorem Between.round {queue new done new' : List α} {seen seen' : Std.TreeSet κ}
    (h : Between key next roots (queue ++ new.reverse) done seen)
    (hround : round key next queue new seen = some (new', seen')) :
    Between key next roots new'.reverse (queue.reverse ++ done) seen' := by
  induction queue generalizing new done seen with
  | nil =>
    obtain ⟨rfl, rfl⟩ : new = new' ∧ seen = seen' := by simpa [Search.round] using hround
    simpa using h
  | cons x queue ih =>
    cases hx : next x with
    | none => simp [Search.round, hx] at hround
    | some ys =>
      have hstep : Between key next roots (queue ++ ((fresh key seen ys).1.reverse ++ new).reverse)
          (x :: done) (fresh key seen ys).2 := by simpa using h.step hx
      simpa using ih hstep (by simpa [Search.round, hx] using hround)

theorem Between.round_isSome {queue new done : List α} {seen : Std.TreeSet κ}
    (h : Between key next roots (queue ++ new.reverse) done seen)
    (hnext : ∀ x, Reach next roots x → (next x).isSome) :
    (Search.round key next queue new seen).isSome := by
  induction queue generalizing new done seen with
  | nil => simp [Search.round]
  | cons x queue ih =>
    obtain ⟨ys, hx⟩ := Option.isSome_iff_exists.mp (hnext x (h.reach x (by simp)))
    have hstep : Between key next roots (queue ++ ((fresh key seen ys).1.reverse ++ new).reverse)
        (x :: done) (fresh key seen ys).2 := by simpa using h.step hx
    simpa [Search.round, hx] using ih hstep

theorem Between.of_rounds {queue done out : List α} {seen : Std.TreeSet κ}
    (h : Between key next roots queue done seen)
    (hout : rounds key next fuel queue done seen = some out) :
    done.reverse ++ queue <+: out ∧ ∃ seen', Between key next roots [] out.reverse seen' := by
  induction fuel generalizing queue done seen with
  | zero =>
    cases queue with
    | nil =>
      obtain rfl : done.reverse = out := by simpa [rounds] using hout
      exact ⟨by simp, seen, by simpa using h⟩
    | cons x queue => simp [rounds] at hout
  | succ n ih =>
    cases queue with
    | nil =>
      obtain rfl : done.reverse = out := by simpa [rounds] using hout
      exact ⟨by simp, seen, by simpa using h⟩
    | cons x queue =>
      rw [rounds] at hout
      split at hout
      · simp at hout
      · next new seen' hround =>
        have hq : Between key next roots (x :: queue ++ [].reverse) done seen := by simpa using h
        have ⟨hpre, hend⟩ := ih (hq.round hround) hout
        exact ⟨List.IsPrefix.trans (by simp) hpre, hend⟩

theorem Between.rounds_isSome {queue done : List α} {seen : Std.TreeSet κ}
    (h : Between key next roots queue done seen)
    (hnext : ∀ x, Reach next roots x → (next x).isSome)
    (hfuel : ∀ xs : List α, (∀ x ∈ xs, Reach next roots x) → (xs.map key).Nodup →
      xs.length ≤ done.length + fuel) :
    (rounds key next fuel queue done seen).isSome := by
  induction fuel generalizing queue done seen with
  | zero =>
    cases queue with
    | nil => simp [rounds]
    | cons x queue =>
      have hlen := hfuel _ h.reach h.nodup
      simp only [List.length_append, List.length_reverse, List.length_cons] at hlen
      omega
  | succ n ih =>
    cases queue with
    | nil => simp [rounds]
    | cons x queue =>
      have hq : Between key next roots (x :: queue ++ [].reverse) done seen := by simpa using h
      obtain ⟨⟨new, seen'⟩, hround⟩ := Option.isSome_iff_exists.mp (hq.round_isSome hnext)
      simp only [rounds, hround]
      refine ih (hq.round hround) fun xs hr hn => ?_
      have := hfuel xs hr hn
      simp only [List.length_append, List.length_reverse, List.length_cons]
      omega

/-- No two items found share a key. -/
theorem explore?_nodup {out : List α} (h : explore? key next fuel roots = some out) :
    (out.map key).Nodup := by
  obtain ⟨-, _, hend⟩ := Between.start.of_rounds h
  simpa using hend.nodup

/-- Search finds exactly what can be reached, if keys tell reachable items apart. -/
theorem explore?_mem {out : List α} (h : explore? key next fuel roots = some out)
    (hkey : ∀ x y, Reach next roots x → Reach next roots y → key x = key y → x = y) {x : α} :
    x ∈ out ↔ Reach next roots x := by
  obtain ⟨-, seen, hend⟩ := Between.start.of_rounds h
  have hmem : ∀ y, key y ∈ seen → Reach next roots y → y ∈ out := fun y hy hr => by
    obtain ⟨z, hz, hzy⟩ := (hend.seen_iff _).mp hy
    rw [← hkey z y (hend.reach z hz) hr hzy]
    simpa using hz
  refine ⟨fun hx => hend.reach x (by simpa using hx), fun hx => ?_⟩
  induction hx with
  | root hr => exact hmem _ (hend.root _ hr) (.root hr)
  | step hx hys hy ih =>
    obtain ⟨ys, hys', hall⟩ := hend.closed _ (List.mem_reverse.mpr ih)
    obtain rfl := Option.some.inj (hys.symm.trans hys')
    exact hmem _ (hall _ hy) (.step hx hys hy)

/-- What is found starts with the roots. -/
theorem explore?_roots {out : List α} (h : explore? key next fuel roots = some out) :
    (fresh key ∅ roots).1 <+: out := by
  simpa using (Between.start.of_rounds h).1

/-- A finished search has seen the successors of everything it found. -/
theorem explore?_next {out : List α} (h : explore? key next fuel roots = some out) {x : α}
    (hx : x ∈ out) : (next x).isSome := by
  obtain ⟨-, _, hend⟩ := Between.start.of_rounds h
  obtain ⟨ys, hys, -⟩ := hend.closed x (List.mem_reverse.mpr hx)
  simp [hys]

/-- A search finishes if no successor list fails and the fuel covers every repeat-free list of
reachable items. -/
theorem explore?_isSome (hnext : ∀ x, Reach next roots x → (next x).isSome)
    (hfuel : ∀ xs : List α, (∀ x ∈ xs, Reach next roots x) → (xs.map key).Nodup →
      xs.length ≤ fuel) :
    (explore? key next fuel roots).isSome :=
  Between.start.rounds_isSome hnext (by simpa using hfuel)

/-- A search that finishes and whose keys tell reachable items apart is exact. -/
theorem exists_explore? (hnext : ∀ x, Reach next roots x → (next x).isSome)
    (hkey : ∀ x y, Reach next roots x → Reach next roots y → key x = key y → x = y)
    (hfuel : ∀ xs : List α, (∀ x ∈ xs, Reach next roots x) → (xs.map key).Nodup →
      xs.length ≤ fuel) :
    ∃ out, explore? key next fuel roots = some out ∧ ∀ x, x ∈ out ↔ Reach next roots x := by
  obtain ⟨out, hout⟩ := Option.isSome_iff_exists.mp (explore?_isSome hnext hfuel)
  exact ⟨out, hout, fun x => explore?_mem hout hkey⟩

end Explore

end Search

end Acceptor
