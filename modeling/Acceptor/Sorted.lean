/-!
# Sorted lists

A strictly increasing list holds each of its members once and in a fixed order, so it stands for the
set of its members. The laws of the order are passed to the lemmas that need them.

## Main results

* `Sorted.mem_place`, `Sorted.place_sorted`: a member can be added.
* `Sorted.mem_placeAll`, `Sorted.placeAll_sorted`: the members of a list can be added.
* `Sorted.eq_of_mem_iff`: a sorted list is determined by its members.
-/

namespace Acceptor

namespace Sorted

variable {α : Type} [LT α] {x y : α} {xs ys : List α}

/-- `x` put at its place in an increasing list, once. -/
def place [DecidableLT α] [DecidableEq α] (x : α) : List α → List α
  | [] => [x]
  | y :: ys => if x < y then x :: y :: ys else if x = y then y :: ys else y :: place x ys

theorem mem_place [DecidableLT α] [DecidableEq α] : y ∈ place x xs ↔ y = x ∨ y ∈ xs := by
  induction xs with
  | nil => simp [place]
  | cons z zs ih => grind [place]

theorem place_sorted [DecidableLT α] [DecidableEq α]
    (trans : ∀ a b c : α, a < b → b < c → a < c) (total : ∀ a b : α, ¬a < b → a ≠ b → b < a)
    (h : xs.Pairwise (· < ·)) : (place x xs).Pairwise (· < ·) := by
  induction xs with
  | nil => simp [place]
  | cons z zs ih =>
    have hz := List.pairwise_cons.mp h
    simp only [place]
    split
    · next hlt =>
      refine List.pairwise_cons.mpr ⟨fun y hy => ?_, h⟩
      rcases List.mem_cons.mp hy with rfl | hy
      · exact hlt
      · exact trans _ _ _ hlt (hz.1 y hy)
    · next hlt =>
      split
      · exact h
      · next hne =>
        refine List.pairwise_cons.mpr ⟨fun y hy => ?_, ih hz.2⟩
        rcases mem_place.mp hy with rfl | hy
        · exact total _ _ hlt hne
        · exact hz.1 y hy

/-- The members of a list put at their places in an increasing list. -/
def placeAll [DecidableLT α] [DecidableEq α] (xs ys : List α) : List α := xs.foldr place ys

theorem mem_placeAll [DecidableLT α] [DecidableEq α] : y ∈ placeAll xs ys ↔ y ∈ xs ∨ y ∈ ys := by
  induction xs with
  | nil => simp [placeAll]
  | cons x xs ih =>
    rw [placeAll, List.foldr_cons, mem_place, ← placeAll, ih, List.mem_cons, or_assoc]

theorem placeAll_sorted [DecidableLT α] [DecidableEq α]
    (trans : ∀ a b c : α, a < b → b < c → a < c) (total : ∀ a b : α, ¬a < b → a ≠ b → b < a)
    (h : ys.Pairwise (· < ·)) : (placeAll xs ys).Pairwise (· < ·) := by
  induction xs with
  | nil => exact h
  | cons x xs ih => exact place_sorted trans total ih

theorem eq_of_mem_iff (asymm : ∀ a b : α, a < b → ¬b < a) (hx : xs.Pairwise (· < ·))
    (hy : ys.Pairwise (· < ·)) (h : ∀ a, a ∈ xs ↔ a ∈ ys) : xs = ys := by
  have ne : ∀ a b : α, a < b → a ≠ b := fun a b hab e => asymm a b hab (e ▸ e ▸ hab)
  have hperm := (List.perm_ext_iff_of_nodup (hx.imp (ne _ _)) (hy.imp (ne _ _))).mpr h
  exact hperm.eq_of_pairwise (fun a b _ _ hab hba => absurd hba (asymm a b hab)) hx hy

end Sorted

end Acceptor
