import Acceptor.Search

/-!
# Searches that find the same under other names

A search looks at its items through their keys and their successors only. So if a map carries the
successors of every item over to those of its image, in the same order, and keys tell images apart
where they tell the items apart, then the two searches go through the same rounds and find the same
items in the same order, up to the map.

## Main results

* `Search.Renaming.explore?_eq`: what one search finds is the image of what the other does.

## Implementation notes

Searches that run out of fuel are left out: two that finish agree, whatever fuel each was given.
-/

namespace Acceptor

namespace Search

variable {α β κ κ' : Type} [Ord κ] [Ord κ']

/-- The map `f` carries the items of one search that satisfy `P` over to items of another one. -/
structure Renaming (key : α → κ) (next : α → Option (List α)) (key' : β → κ')
    (next' : β → Option (List β)) (P : α → Prop) (f : α → β) : Prop where
  /-- Keys tell two images apart if they tell the items apart. -/
  key_iff : ∀ x y, P x → P y → (key' (f x) = key' (f y) ↔ key x = key y)
  /-- Successors satisfy the property again. -/
  keeps : ∀ x ys, P x → next x = some ys → ∀ y ∈ ys, P y
  /-- The successors of an image are the images of the successors. -/
  next_eq : ∀ x ys, P x → next x = some ys → next' (f x) = some (ys.map f)

/-- The same items have been seen in both searches. -/
def SameSeen (key : α → κ) (key' : β → κ') (P : α → Prop) (f : α → β) (seen : Std.TreeSet κ)
    (seen' : Std.TreeSet κ') : Prop :=
  ∀ x, P x → (key' (f x) ∈ seen' ↔ key x ∈ seen)

namespace Renaming

variable [Std.TransOrd κ] [Std.LawfulEqOrd κ] [Std.TransOrd κ'] [Std.LawfulEqOrd κ']
  {key : α → κ} {next : α → Option (List α)} {key' : β → κ'} {next' : β → Option (List β)}
  {P : α → Prop} {f : α → β} {seen seen₁ : Std.TreeSet κ} {seen' : Std.TreeSet κ'}
  {xs queue new new₁ done out roots : List α} {out' : List β} {fuel fuel' : Nat} {x : α}

theorem insert (h : Renaming key next key' next' P f) (hx : P x)
    (hseen : SameSeen key key' P f seen seen') :
    SameSeen key key' P f (seen.insert (key x)) (seen'.insert (key' (f x))) := by
  intro y hy
  simp only [Std.TreeSet.mem_insert, Std.compare_eq_iff_eq, h.key_iff x y hx hy, hseen y hy]

theorem fresh (h : Renaming key next key' next' P f) (hseen : SameSeen key key' P f seen seen')
    (hxs : ∀ x ∈ xs, P x) :
    (Search.fresh key' seen' (xs.map f)).1 = (Search.fresh key seen xs).1.map f ∧
      SameSeen key key' P f (Search.fresh key seen xs).2
        (Search.fresh key' seen' (xs.map f)).2 := by
  induction xs generalizing seen seen' with
  | nil => exact ⟨rfl, hseen⟩
  | cons x xs ih =>
    obtain ⟨hx, hxs⟩ := List.forall_mem_cons.mp hxs
    have hcontains : seen'.contains (key' (f x)) = seen.contains (key x) :=
      Bool.eq_iff_iff.mpr (by simpa using hseen x hx)
    rw [List.map_cons, Search.fresh, Search.fresh, hcontains]
    split
    · exact ih hseen hxs
    · obtain ⟨hfresh, hseen⟩ := ih (h.insert hx hseen) hxs
      exact ⟨congrArg (f x :: ·) hfresh, hseen⟩

/-- One round. -/
theorem round (h : Renaming key next key' next' P f) (hseen : SameSeen key key' P f seen seen')
    (hqueue : ∀ x ∈ queue, P x) (hnew : ∀ x ∈ new, P x)
    (hround : Search.round key next queue new seen = some (new₁, seen₁)) :
    (∀ x ∈ new₁, P x) ∧ ∃ seen₁',
      Search.round key' next' (queue.map f) (new.map f) seen' = some (new₁.map f, seen₁') ∧
        SameSeen key key' P f seen₁ seen₁' := by
  induction queue generalizing new seen seen' with
  | nil =>
    obtain ⟨rfl, rfl⟩ : new = new₁ ∧ seen = seen₁ := by simpa [Search.round] using hround
    exact ⟨hnew, seen', rfl, hseen⟩
  | cons x queue ih =>
    obtain ⟨hx, hqueue⟩ := List.forall_mem_cons.mp hqueue
    rw [Search.round] at hround
    split at hround
    · cases hround
    · next ys hys =>
      have hPys := h.keeps x ys hx hys
      obtain ⟨hfresh, hseen⟩ := h.fresh hseen hPys
      have hnew' : ∀ y ∈ (Search.fresh key seen ys).1.reverse ++ new, P y := by
        intro y hy
        rcases List.mem_append.mp hy with hy | hy
        · exact hPys y (mem_of_mem_fresh (List.mem_reverse.mp hy)).1
        · exact hnew y hy
      obtain ⟨hnew₁, seen₁', hround', hseen₁⟩ := ih hseen hqueue hnew' hround
      refine ⟨hnew₁, seen₁', ?_, hseen₁⟩
      rw [List.map_cons, Search.round, h.next_eq x ys hx hys]
      simpa [hfresh] using hround'

/-- Any number of rounds. -/
theorem rounds (h : Renaming key next key' next' P f) (hseen : SameSeen key key' P f seen seen')
    (hqueue : ∀ x ∈ queue, P x) (hout : Search.rounds key next fuel queue done seen = some out)
    (hout' : Search.rounds key' next' fuel' (queue.map f) (done.map f) seen' = some out') :
    out' = out.map f := by
  induction fuel generalizing fuel' queue done seen seen' with
  | zero =>
    cases queue with
    | nil =>
      obtain rfl : done.reverse = out := by simpa [Search.rounds] using hout
      simpa [Search.rounds] using hout'.symm
    | cons x queue => simp [Search.rounds] at hout
  | succ fuel ih =>
    cases queue with
    | nil =>
      obtain rfl : done.reverse = out := by simpa [Search.rounds] using hout
      simpa [Search.rounds] using hout'.symm
    | cons x queue =>
      rw [Search.rounds] at hout
      split at hout
      · cases hout
      · next new₁ seen₁ hround =>
        obtain ⟨hnew₁, seen₁', hround', hseen₁⟩ := h.round hseen hqueue (by simp) hround
        cases fuel' with
        | zero => simp [Search.rounds] at hout'
        | succ fuel' =>
          rw [List.map_cons] at hout' hround'
          rw [List.map_nil] at hround'
          rw [Search.rounds, hround'] at hout'
          have hrest : Search.rounds key' next' fuel' (new₁.reverse.map f)
              (((x :: queue).reverse ++ done).map f) seen₁' = some out' := by simpa using hout'
          exact ih hseen₁ (by simpa using hnew₁) hout hrest

/-- **What is found does not depend on names.** If both searches finish, the second finds the images
of what the first does, in the same order. -/
theorem explore?_eq (h : Renaming key next key' next' P f) (hroots : ∀ x ∈ roots, P x)
    (hout : explore? key next fuel roots = some out)
    (hout' : explore? key' next' fuel' (roots.map f) = some out') : out' = out.map f := by
  have hempty : SameSeen key key' P f ∅ ∅ := fun x _ => by simp
  obtain ⟨hfresh, hseen⟩ := h.fresh hempty hroots
  rw [explore?, hfresh] at hout'
  exact h.rounds hseen (fun x hx => hroots x (mem_of_mem_fresh hx).1) hout hout'

end Renaming

end Search

end Acceptor
