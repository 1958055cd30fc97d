import Acceptor.Machine.Runs
import Acceptor.Pattern.Machine

/-!
# Runs along the edges of items

The edges of a sequence of items lie on a row of states and never lead back by more than a loop. So
a run along them falls apart at the first state: some turns of its loop, then an edge to the next
state, after which only the edges of later items can be followed.

A loop shares its state with the item after it, unless that is a loop too. The edges of that item
all leave the state for good, so the loop's turns come first here as well.

## Main results

* `Pattern.mem_arrows`: where the edges of items lie.
* `Pattern.ArrowRun.loop_iff`, `Pattern.ArrowRun.onward_iff`: how a run leaves its first state.
* `Pattern.arrowRun_iff`: the runs along the edges of items read the words of the items.
-/

namespace Acceptor

namespace Pattern

variable {as bs : List Arrow} {p q r i : Nat} {l : Label} {c : Char} {w : List Char}
  {x : Item} {xs : List Item}

/-! ### Runs along edges -/

/-- A run along edges of a list. -/
inductive ArrowRun (as : List Arrow) : Nat → List Char → Nat → Prop where
  /-- The run without an edge. -/
  | stay (q : Nat) : ArrowRun as q [] q
  /-- A run whose first edge reads a character. -/
  | read {p q r : Nat} {l : Label} {c : Char} {w : List Char} :
    (p, l, q) ∈ as → l.reads c → ArrowRun as q w r → ArrowRun as p (c :: w) r
  /-- A run whose first edge is an empty move. -/
  | skip {p q r : Nat} {w : List Char} :
    (p, .epsilon, q) ∈ as → ArrowRun as q w r → ArrowRun as p w r

theorem ArrowRun.mono (hsub : as ⊆ bs) (h : ArrowRun as p w q) : ArrowRun bs p w q := by
  induction h with
  | stay q => exact .stay q
  | read ha hc _ ih => exact .read (hsub ha) hc ih
  | skip ha _ ih => exact .skip (hsub ha) ih

/-- The machine whose edges are those of the list runs along them. -/
theorem run_iff_arrowRun {m : Machine} (h : ∀ p l q, q ∈ m.graph.targets p l ↔ (p, l, q) ∈ as) :
    m.Run p w q ↔ ArrowRun as p w q := by
  constructor
  · intro hrun
    induction hrun with
    | stay q => exact .stay q
    | read hq hc _ ih => exact .read ((h _ _ _).mp hq) hc ih
    | skip hq _ ih => exact .skip ((h _ _ _).mp hq) ih
  · intro hrun
    induction hrun with
    | stay q => exact .stay q
    | read ha hc _ ih => exact .read ((h _ _ _).mpr ha) hc ih
    | skip ha _ ih => exact .skip ((h _ _ _).mpr ha) ih

/-- Behind the sources of the first edges, and with no edge back, only the others are followed. -/
theorem ArrowRun.of_append (has : ∀ a ∈ as, a.1 ≤ i) (hbs : ∀ b ∈ bs, i < b.2.2) (hp : i < p)
    (h : ArrowRun (as ++ bs) p w q) : ArrowRun bs p w q := by
  have hlater {p l q} (hp : i < p) (ha : (p, l, q) ∈ as ++ bs) : (p, l, q) ∈ bs := by
    refine (List.mem_append.mp ha).resolve_left fun ha => ?_
    have := has _ ha
    omega
  induction h with
  | stay q => exact .stay q
  | read ha hc _ ih =>
    have hb := hlater hp ha
    exact .read hb hc (ih (hbs _ hb))
  | skip ha _ ih =>
    have hb := hlater hp ha
    exact .skip hb (ih (hbs _ hb))

/-- A run from a state with edges to the next one only starts with one of these. -/
theorem ArrowRun.onward_iff (has : ∀ a ∈ as, a.1 = i ∧ a.2.2 = i + 1)
    (hbs : ∀ b ∈ bs, i < b.1 ∧ i < b.2.2) (hq : i < q) :
    ArrowRun (as ++ bs) i w q ↔
      (i, .epsilon, i + 1) ∈ as ∧ ArrowRun bs (i + 1) w q ∨
      ∃ l c v, (i, l, i + 1) ∈ as ∧ l.reads c ∧ w = c :: v ∧ ArrowRun bs (i + 1) v q := by
  have hfirst {l r} (ha : (i, l, r) ∈ as ++ bs) : (i, l, r) ∈ as ∧ r = i + 1 := by
    rcases List.mem_append.mp ha with ha | hb
    · exact ⟨ha, (has _ ha).2⟩
    · exact absurd (hbs _ hb).1 (Nat.lt_irrefl i)
  have hrest {v} (h : ArrowRun (as ++ bs) (i + 1) v q) : ArrowRun bs (i + 1) v q :=
    h.of_append (fun a ha => Nat.le_of_eq (has a ha).1) (fun b hb => (hbs b hb).2)
      (Nat.lt_succ_self i)
  constructor
  · intro h
    cases h with
    | stay => exact absurd hq (Nat.lt_irrefl _)
    | read ha hc hrun =>
      obtain ⟨ha, rfl⟩ := hfirst ha
      exact .inr ⟨_, _, _, ha, hc, rfl, hrest hrun⟩
    | skip ha hrun =>
      obtain ⟨ha, rfl⟩ := hfirst ha
      exact .inl ⟨ha, hrest hrun⟩
  · rintro (⟨ha, hrun⟩ | ⟨l, c, v, ha, hc, rfl, hrun⟩)
    · exact .skip (List.mem_append_left _ ha) (hrun.mono (List.subset_append_right _ _))
    · exact .read (List.mem_append_left _ ha) hc (hrun.mono (List.subset_append_right _ _))

/-- A run from a state with a loop starts with turns of the loop, if no other edge comes back. -/
theorem ArrowRun.loop_iff (hbs : ∀ b ∈ bs, i < b.2.2) :
    ArrowRun ((i, l, i) :: bs) i w q ↔
      ∃ u v, w = u ++ v ∧ (∀ c ∈ u, l.reads c) ∧ ArrowRun bs i v q := by
  have hloop : ∀ a ∈ [(i, l, i)], a.1 ≤ i := by simp
  have hrest {p v} (hp : i < p) (h : ArrowRun ((i, l, i) :: bs) p v q) : ArrowRun bs p v q :=
    ArrowRun.of_append hloop hbs hp h
  -- the start varies along the run; only runs that are still at `i` have to be taken apart
  have hturns {p v} (h : ArrowRun ((i, l, i) :: bs) p v q) (hp : p = i) :
      ∃ u v', v = u ++ v' ∧ (∀ c ∈ u, l.reads c) ∧ ArrowRun bs i v' q := by
    induction h with
    | stay => exact ⟨[], [], rfl, by simp, hp ▸ .stay _⟩
    | read ha hc hrun ih =>
      subst hp
      rcases List.mem_cons.mp ha with heq | hb
      · cases heq
        obtain ⟨u, v, rfl, hu, hv⟩ := ih hrest rfl
        exact ⟨_ :: u, v, rfl, List.forall_mem_cons.mpr ⟨hc, hu⟩, hv⟩
      · exact ⟨[], _, rfl, by simp, .read hb hc (hrest (hbs _ hb) hrun)⟩
    | skip ha hrun ih =>
      subst hp
      rcases List.mem_cons.mp ha with heq | hb
      · cases heq
        exact ih hrest rfl
      · exact ⟨[], _, rfl, by simp, .skip hb (hrest (hbs _ hb) hrun)⟩
  constructor
  · exact fun h => hturns h rfl
  · rintro ⟨u, v, rfl, hu, hv⟩
    induction u with
    | nil => exact hv.mono (List.subset_cons_self _ _)
    | cons c u ih =>
      obtain ⟨hc, hu⟩ := List.forall_mem_cons.mp hu
      exact .read (List.mem_cons_self ..) hc (ih hu)

/-! ### Where the edges of items lie -/

theorem le_lastState (i : Nat) (xs : List Item) : i ≤ lastState i xs := by
  induction xs generalizing i with
  | nil => exact Nat.le_refl i
  | cons x xs ih => exact Nat.le_trans (Nat.le_add_right i _) (ih _)

/-- The edges of one item: an empty move or its own label, one state on or on the spot. -/
theorem mem_item_arrows (h : (p, l, q) ∈ x.arrows xs i) :
    p = i ∧ (l = .epsilon ∧ q = i + 1 ∨ l = x.label ∧ (q = i + 1 ∨ q = i ∧ x.count = .many)) ∧
      q ≤ i + x.advance xs := by
  obtain ⟨label, count⟩ := x
  cases count with
  | one =>
    obtain ⟨rfl, rfl, rfl⟩ : p = i ∧ l = label ∧ q = i + 1 := by simpa [Item.arrows] using h
    simp [Item.advance]
  | optional =>
    simp only [Item.arrows, List.mem_cons, Prod.mk.injEq, List.not_mem_nil, or_false] at h
    rcases h with ⟨rfl, rfl, rfl⟩ | ⟨rfl, rfl, rfl⟩
    · exact ⟨rfl, .inl ⟨rfl, rfl⟩, Nat.le_refl _⟩
    · exact ⟨rfl, .inr ⟨rfl, .inl rfl⟩, Nat.le_refl _⟩
  | many =>
    simp only [Item.arrows, List.mem_cons, Prod.mk.injEq] at h
    rcases h with ⟨rfl, rfl, rfl⟩ | h
    · simp
    · split at h
      · next hadvance =>
        obtain ⟨rfl, rfl, rfl⟩ : p = i ∧ l = .epsilon ∧ q = i + 1 := by simpa using h
        simp [hadvance]
      · cases h

theorem mem_arrows_cons {a : Arrow} :
    a ∈ arrows i (x :: xs) ↔ a ∈ x.arrows xs i ∨ a ∈ arrows (i + x.advance xs) xs :=
  List.mem_append

/-- The edges of items lie between the first and the last state. They lead one state on, or are
loops of items that are read any number of times. -/
theorem mem_arrows (h : (p, l, q) ∈ arrows i xs) :
    i ≤ p ∧ q ≤ lastState i xs ∧
      (l = .epsilon ∧ q = p + 1 ∨
        ∃ x ∈ xs, l = x.label ∧ (q = p + 1 ∨ q = p ∧ x.count = .many)) := by
  induction xs generalizing i with
  | nil => cases h
  | cons x xs ih =>
    rcases mem_arrows_cons.mp h with h | h
    · obtain ⟨rfl, hcases, hq⟩ := mem_item_arrows h
      refine ⟨Nat.le_refl p, Nat.le_trans hq (le_lastState _ xs), hcases.imp_right ?_⟩
      rintro ⟨hl, hcount⟩
      exact ⟨x, List.mem_cons_self .., hl, hcount⟩
    · obtain ⟨hp, hq, hcases⟩ := ih h
      refine ⟨Nat.le_trans (Nat.le_add_right i _) hp, hq, hcases.imp_right ?_⟩
      rintro ⟨y, hy, h⟩
      exact ⟨y, List.mem_cons_of_mem x hy, h⟩

theorem le_of_mem_arrows {a : Arrow} (h : a ∈ arrows i xs) : i ≤ a.1 ∧ i ≤ a.2.2 := by
  obtain ⟨p, l, q⟩ := a
  obtain ⟨hp, -, ⟨-, rfl⟩ | ⟨_, -, -, rfl | ⟨rfl, -⟩⟩⟩ := mem_arrows h
  · exact ⟨hp, Nat.le_succ_of_le hp⟩
  · exact ⟨hp, Nat.le_succ_of_le hp⟩
  · exact ⟨hp, hp⟩

/-- No edge enters the first state, unless the first item loops there. -/
theorem lt_of_mem_arrows {a : Arrow} (hhead : xs.head?.any (·.count == .many) = false)
    (h : a ∈ arrows i xs) : i < a.2.2 := by
  cases xs with
  | nil => cases h
  | cons x xs =>
    have hcount : x.count ≠ .many := by simpa using hhead
    rcases mem_arrows_cons.mp h with h | h
    · obtain ⟨p, l, q⟩ := a
      obtain ⟨rfl, ⟨-, rfl⟩ | ⟨-, rfl | ⟨-, hmany⟩⟩, -⟩ := mem_item_arrows h
      · exact Nat.lt_succ_self _
      · exact Nat.lt_succ_self _
      · exact absurd hmany hcount
    · have hadvance : x.advance xs = 1 := by
        rw [Item.advance]
        split <;> simp_all
      have hle := (le_of_mem_arrows h).2
      omega

/-! ### Runs and words of items -/

theorem itemsMatch_one (hcount : x.count = .one) : ItemsMatch (x :: xs) w ↔
    ∃ c v, x.label.reads c ∧ w = c :: v ∧ ItemsMatch xs v := by
  simp only [ItemsMatch, Item.Matches, hcount]
  constructor
  · rintro ⟨_, v, rfl, ⟨c, rfl, hc⟩, hv⟩
    exact ⟨c, v, hc, rfl, hv⟩
  · rintro ⟨c, v, hc, rfl, hv⟩
    exact ⟨[c], v, rfl, ⟨c, rfl, hc⟩, hv⟩

theorem itemsMatch_optional (hcount : x.count = .optional) : ItemsMatch (x :: xs) w ↔
    ItemsMatch xs w ∨ ∃ c v, x.label.reads c ∧ w = c :: v ∧ ItemsMatch xs v := by
  simp only [ItemsMatch, Item.Matches, hcount]
  constructor
  · rintro ⟨_, v, rfl, rfl | ⟨c, rfl, hc⟩, hv⟩
    · exact .inl hv
    · exact .inr ⟨c, v, hc, rfl, hv⟩
  · rintro (hv | ⟨c, v, hc, rfl, hv⟩)
    · exact ⟨[], w, rfl, .inl rfl, hv⟩
    · exact ⟨[c], v, rfl, .inr ⟨c, rfl, hc⟩, hv⟩

theorem itemsMatch_many (hcount : x.count = .many) : ItemsMatch (x :: xs) w ↔
    ∃ u v, w = u ++ v ∧ (∀ c ∈ u, x.label.reads c) ∧ ItemsMatch xs v := by
  simp only [ItemsMatch, Item.Matches, hcount]

/-- **The runs along the edges of items read the words of the items.** -/
theorem arrowRun_iff (hlabels : ∀ x ∈ xs, x.label ≠ .epsilon) :
    ArrowRun (arrows i xs) i w (lastState i xs) ↔ ItemsMatch xs w := by
  induction xs generalizing i w with
  | nil =>
    constructor
    · intro h
      cases h with
      | stay => rfl
      | read ha => cases ha
      | skip ha => cases ha
    · rintro rfl
      exact .stay i
  | cons x xs ih =>
    obtain ⟨hx, hxs⟩ := List.forall_mem_cons.mp hlabels
    have hnext : ∀ b ∈ arrows (i + 1) xs, i < b.1 ∧ i < b.2.2 := fun b hb => le_of_mem_arrows hb
    have hlast : i < lastState (i + 1) xs := le_lastState (i + 1) xs
    obtain ⟨l, count⟩ := x
    cases count with
    | one =>
      rw [itemsMatch_one rfl]
      show ArrowRun ([(i, l, i + 1)] ++ arrows (i + 1) xs) i w (lastState (i + 1) xs) ↔ _
      rw [ArrowRun.onward_iff (by simp) hnext hlast]
      simp [ih hxs, hx.symm]
    | optional =>
      rw [itemsMatch_optional rfl]
      show ArrowRun ([(i, .epsilon, i + 1), (i, l, i + 1)] ++ arrows (i + 1) xs) i w
        (lastState (i + 1) xs) ↔ _
      rw [ArrowRun.onward_iff (by simp) hnext hlast]
      simp [ih hxs]
    | many =>
      rw [itemsMatch_many rfl]
      cases hhead : xs.head?.any (·.count == .many) with
      | true =>
        -- the empty move onward keeps this loop and the next one apart
        have hadvance : Item.advance ⟨l, .many⟩ xs = 1 := by simp [Item.advance, hhead]
        have honward (v : List Char) : ArrowRun ([(i, .epsilon, i + 1)] ++ arrows (i + 1) xs) i v
            (lastState (i + 1) xs) ↔ ItemsMatch xs v := by
          rw [ArrowRun.onward_iff (by simp) hnext hlast]
          simp [ih hxs]
        have hback : ∀ b ∈ [(i, .epsilon, i + 1)] ++ arrows (i + 1) xs, i < b.2.2 := by
          simpa using fun p l q h => (hnext (p, l, q) h).2
        have harrows : arrows i (⟨l, .many⟩ :: xs) =
            (i, l, i) :: ([(i, .epsilon, i + 1)] ++ arrows (i + 1) xs) := by
          simp [arrows, Item.arrows, hadvance]
        rw [harrows, lastState, hadvance, ArrowRun.loop_iff hback]
        simp only [honward]
      | false =>
        -- the loop stays on the first state of the items after it
        have hadvance : Item.advance ⟨l, .many⟩ xs = 0 := by simp [Item.advance, hhead]
        have harrows : arrows i (⟨l, .many⟩ :: xs) = (i, l, i) :: arrows i xs := by
          simp [arrows, Item.arrows, hadvance]
        rw [harrows, lastState, hadvance, Nat.add_zero,
          ArrowRun.loop_iff fun b hb => lt_of_mem_arrows hhead hb]
        simp only [ih hxs]

end Pattern

end Acceptor
