import Acceptor.Label

/-!
# The edges that leave one state

`Edges` maps labels to lists of targets and remembers the order of addition: labels are listed by
their first edge, the targets of a label by theirs. Adding an edge a second time changes nothing.

## Main results

* `Edges.targets_insert`, `Edges.labels_insert`: what adding one edge does to the two views.
* `Edges.mem_targets_ofList`: the edges of a list are exactly the edges stored.
* `Edges.targets_ofGroups`: edges given group by group have the targets given.
* `Edges.targets_renumber`: the edges left after states are dropped and renumbered.
* `Edges.agrees_iff`: the comparison that ignores the order of labels compares all target lists.

## Implementation notes

Every stored group is inhabited and free of repeats, and no label has two groups. The three facts
are fields of the type, so `groups` can be read off as it stands.
-/

namespace Acceptor

/-- The edges that leave one state, grouped by label. -/
structure Edges where
  /-- The labels in the order of their first edge, each with its targets in order of addition. -/
  groups : List (Label × List Nat)
  /-- A label has one group. -/
  labels_nodup : (groups.map Prod.fst).Nodup
  /-- A group has a target. -/
  targets_ne_nil : ∀ g ∈ groups, g.2 ≠ []
  /-- A target is listed once under its label. -/
  targets_nodup : ∀ g ∈ groups, g.2.Nodup
  deriving DecidableEq

namespace Edges

variable {e : Edges} {l k : Label} {p q : Nat}

instance : EmptyCollection Edges := ⟨⟨[], .nil, by simp, by simp⟩⟩

instance : Inhabited Edges := ⟨∅⟩

/-! ### Looking up targets -/

/-- The targets listed under `l`, none if `l` is not listed. -/
def targetsIn (l : Label) : List (Label × List Nat) → List Nat
  | [] => []
  | (k, qs) :: gs => if k = l then qs else targetsIn l gs

theorem targetsIn_eq_nil {gs : List (Label × List Nat)} (h : l ∉ gs.map Prod.fst) :
    targetsIn l gs = [] := by
  induction gs with
  | nil => rfl
  | cons g gs ih => grind [targetsIn]

theorem targetsIn_of_mem {gs : List (Label × List Nat)} (hn : (gs.map Prod.fst).Nodup)
    {g : Label × List Nat} (hg : g ∈ gs) : targetsIn g.1 gs = g.2 := by
  induction gs with
  | nil => simp at hg
  | cons h gs ih =>
    have hn' := List.nodup_cons.mp (List.map_cons ▸ hn)
    rcases List.mem_cons.mp hg with rfl | hg
    · simp [targetsIn]
    · have hne : h.1 ≠ g.1 := fun heq => hn'.1 (heq ▸ List.mem_map_of_mem hg)
      simp [targetsIn, hne, ih hn'.2 hg]

/-- The targets of the edges labelled `l`, in order of addition. -/
def targets (e : Edges) (l : Label) : List Nat := targetsIn l e.groups

/-- The labels that have an edge, in the order of their first one. -/
def labels (e : Edges) : List Label := e.groups.map Prod.fst

/-- Whether some edge is labelled `l`. -/
def has (e : Edges) (l : Label) : Bool := !(e.targets l).isEmpty

/-- Every edge, group by group. -/
def toList (e : Edges) : List (Label × Nat) := e.groups.flatMap fun g => g.2.map (g.1, ·)

@[simp] theorem targets_empty (l : Label) : (∅ : Edges).targets l = [] := rfl

theorem targets_of_mem {g : Label × List Nat} (h : g ∈ e.groups) : e.targets g.1 = g.2 :=
  targetsIn_of_mem e.labels_nodup h

theorem targets_eq_nil (h : l ∉ e.labels) : e.targets l = [] := targetsIn_eq_nil h

theorem mem_labels : l ∈ e.labels ↔ e.targets l ≠ [] := by
  refine ⟨fun h => ?_, fun h => Decidable.byContradiction fun hl => h (targets_eq_nil hl)⟩
  obtain ⟨g, hg, rfl⟩ := List.mem_map.mp h
  rw [targets_of_mem hg]
  exact e.targets_ne_nil g hg

theorem mem_groups {qs : List Nat} : (l, qs) ∈ e.groups ↔ e.targets l = qs ∧ qs ≠ [] := by
  constructor
  · exact fun h => ⟨targets_of_mem h, e.targets_ne_nil _ h⟩
  · rintro ⟨rfl, h⟩
    obtain ⟨g, hg, rfl⟩ := List.mem_map.mp (mem_labels.mpr h)
    rw [targets_of_mem hg]
    exact hg

theorem groups_eq_map (e : Edges) : e.groups = e.labels.map fun l => (l, e.targets l) := by
  rw [labels, List.map_map, List.map_congr_left (g := id), List.map_id]
  exact fun g hg => Prod.ext rfl (targets_of_mem hg)

theorem nodup_targets (e : Edges) (l : Label) : (e.targets l).Nodup := by
  by_cases h : e.targets l = []
  · simp [h]
  · exact e.targets_nodup _ (mem_groups.mpr ⟨rfl, h⟩)

@[simp] theorem mem_toList : (l, q) ∈ e.toList ↔ q ∈ e.targets l := by
  simp only [toList, List.mem_flatMap, List.mem_map, Prod.mk.injEq]
  constructor
  · rintro ⟨g, hg, p, hp, rfl, rfl⟩
    rwa [targets_of_mem hg]
  · intro h
    exact ⟨(l, e.targets l), mem_groups.mpr ⟨rfl, List.ne_nil_of_mem h⟩, q, h, rfl, rfl⟩

/-! ### Adding edges -/

/-- A list with `q` put at its end unless it is a member already. -/
def addNew (qs : List Nat) (q : Nat) : List Nat := if q ∈ qs then qs else qs ++ [q]

@[simp] theorem mem_addNew {qs : List Nat} : p ∈ addNew qs q ↔ p ∈ qs ∨ p = q := by
  grind [addNew]

theorem addNew_ne_nil (qs : List Nat) (q : Nat) : addNew qs q ≠ [] := by
  have h : q ∈ addNew qs q := by simp
  exact List.ne_nil_of_mem h

theorem addNew_nodup {qs : List Nat} (h : qs.Nodup) (q : Nat) : (addNew qs q).Nodup := by
  grind [addNew]

/-- The groups after an edge is added: its target joins the group of its label, which comes last
if it is new. -/
def addTo (l : Label) (q : Nat) : List (Label × List Nat) → List (Label × List Nat)
  | [] => [(l, [q])]
  | (k, qs) :: gs => if k = l then (k, addNew qs q) :: gs else (k, qs) :: addTo l q gs

theorem map_fst_addTo (l : Label) (q : Nat) (gs : List (Label × List Nat)) :
    (addTo l q gs).map Prod.fst =
      if l ∈ gs.map Prod.fst then gs.map Prod.fst else gs.map Prod.fst ++ [l] := by
  induction gs with
  | nil => rfl
  | cons g gs ih => grind [addTo]

theorem targetsIn_addTo (l k : Label) (q : Nat) (gs : List (Label × List Nat)) :
    targetsIn k (addTo l q gs) = if k = l then addNew (targetsIn k gs) q else targetsIn k gs := by
  induction gs with
  | nil => grind [addTo, targetsIn, addNew]
  | cons g gs ih => grind [addTo, targetsIn]

theorem forall_mem_addTo {P : List Nat → Prop} {gs : List (Label × List Nat)}
    (hs : ∀ g ∈ gs, P g.2) (h1 : P [q]) (hadd : ∀ qs, P qs → P (addNew qs q)) :
    ∀ g ∈ addTo l q gs, P g.2 := by
  induction gs with
  | nil => simpa [addTo] using h1
  | cons g gs ih => grind [addTo]

/-- The edges with one more, labelled `l` and leading to `q`. -/
def insert (e : Edges) (l : Label) (q : Nat) : Edges where
  groups := addTo l q e.groups
  labels_nodup := by
    rw [map_fst_addTo]
    have h := e.labels_nodup
    grind
  targets_ne_nil :=
    forall_mem_addTo (P := (· ≠ [])) e.targets_ne_nil (List.cons_ne_nil q []) fun qs _ =>
      addNew_ne_nil qs q
  targets_nodup :=
    forall_mem_addTo (P := List.Nodup) e.targets_nodup (by simp) fun _ h =>
      addNew_nodup h q

theorem targets_insert (e : Edges) (l k : Label) (q : Nat) :
    (e.insert l q).targets k = if k = l then addNew (e.targets k) q else e.targets k :=
  targetsIn_addTo l k q e.groups

theorem labels_insert (e : Edges) (l : Label) (q : Nat) :
    (e.insert l q).labels = if l ∈ e.labels then e.labels else e.labels ++ [l] :=
  map_fst_addTo l q e.groups

/-- The edges of a list, added one after the other. -/
def ofList (es : List (Label × Nat)) : Edges := es.foldl (fun e p => e.insert p.1 p.2) ∅

theorem mem_targets_foldl {es : List (Label × Nat)} :
    q ∈ (es.foldl (fun e p => e.insert p.1 p.2) e).targets l ↔ q ∈ e.targets l ∨ (l, q) ∈ es := by
  induction es generalizing e with
  | nil => simp
  | cons p es ih =>
    rw [List.foldl_cons, ih, targets_insert]
    grind [mem_addNew]

@[simp] theorem mem_targets_ofList {es : List (Label × Nat)} :
    q ∈ (ofList es).targets l ↔ (l, q) ∈ es := by simp [ofList, mem_targets_foldl]

/-! ### Edges group by group -/

/-- The edges with the given groups. A group without a target is left out. -/
def ofGroups (gs : List (Label × List Nat)) (hn : (gs.map Prod.fst).Nodup)
    (ht : ∀ g ∈ gs, g.2.Nodup) : Edges where
  groups := gs.filter fun g => !g.2.isEmpty
  labels_nodup := hn.sublist (List.filter_sublist.map _)
  targets_ne_nil := by
    intro g hg hnil
    simp [hnil] at hg
  targets_nodup g hg := ht g (List.mem_filter.mp hg).1

theorem targetsIn_filter (l : Label) (gs : List (Label × List Nat))
    (hn : (gs.map Prod.fst).Nodup) :
    targetsIn l (gs.filter fun g => !g.2.isEmpty) = targetsIn l gs := by
  induction gs with
  | nil => rfl
  | cons g gs ih =>
    have ⟨hg, hn'⟩ := List.nodup_cons.mp (List.map_cons ▸ hn)
    obtain ⟨k, qs⟩ := g
    by_cases hk : k = l
    · subst hk
      cases qs with
      | nil => simpa [targetsIn, ih hn'] using targetsIn_eq_nil hg
      | cons q qs => simp [targetsIn]
    · cases qs <;> simp [targetsIn, hk, ih hn']

theorem targets_ofGroups {gs : List (Label × List Nat)} {hn : (gs.map Prod.fst).Nodup}
    {ht : ∀ g ∈ gs, g.2.Nodup} (l : Label) : (ofGroups gs hn ht).targets l = targetsIn l gs :=
  targetsIn_filter l gs hn

/-- The place of a target among the states that are kept, if it is kept. -/
def renumbered (kept qs : List Nat) : List Nat := (qs.filter (· ∈ kept)).map kept.idxOf

theorem eq_of_idxOf_eq {kept : List Nat} (hp : p ∈ kept) (h : kept.idxOf p = kept.idxOf q) :
    p = q := by
  have hget (r : Nat) (hr : kept.idxOf r < kept.length) : kept[kept.idxOf r]? = some r := by
    rw [List.getElem?_eq_getElem hr, List.getElem_idxOf]
  have hlt := List.idxOf_lt_length_of_mem hp
  have hp' := hget p hlt
  rw [h, hget q (h ▸ hlt)] at hp'
  exact (Option.some.inj hp').symm

theorem renumbered_nodup {kept qs : List Nat} (h : qs.Nodup) : (renumbered kept qs).Nodup := by
  refine List.pairwise_map.mpr ((h.filter _).imp_of_mem fun hp hq hne heq => hne ?_)
  exact eq_of_idxOf_eq (by simpa using (List.mem_filter.mp hp).2) heq

/-- The edges to the states that are kept, which are numbered by their places. -/
def renumber (e : Edges) (kept : List Nat) : Edges :=
  ofGroups (e.groups.map fun g => (g.1, renumbered kept g.2))
    (by simpa [Function.comp_def] using e.labels_nodup)
    (by
      simp only [List.mem_map]
      rintro _ ⟨g, hg, rfl⟩
      exact renumbered_nodup (e.targets_nodup g hg))

theorem targetsIn_map (l : Label) (f : List Nat → List Nat) (hf : f [] = [])
    (gs : List (Label × List Nat)) :
    targetsIn l (gs.map fun g => (g.1, f g.2)) = f (targetsIn l gs) := by
  induction gs with
  | nil => simp [targetsIn, hf]
  | cons g gs ih => by_cases h : g.1 = l <;> simp_all [targetsIn]

theorem targets_renumber (e : Edges) (kept : List Nat) (l : Label) :
    (e.renumber kept).targets l = renumbered kept (e.targets l) := by
  rw [renumber, targets_ofGroups, targetsIn_map l _ rfl]
  rfl

/-! ### Comparison up to the order of labels -/

/-- Whether both list the same targets under every label. The order of labels is ignored, the order
of targets is not. -/
def agrees (e f : Edges) : Bool :=
  e.groups.all (fun g => f.targets g.1 == g.2) && f.groups.all (fun g => e.targets g.1 == g.2)

theorem agrees_iff {f : Edges} : e.agrees f ↔ ∀ l, e.targets l = f.targets l := by
  simp only [agrees, Bool.and_eq_true, List.all_eq_true, beq_iff_eq]
  constructor
  · rintro ⟨he, hf⟩ l
    by_cases hl : l ∈ e.labels
    · have hg := mem_groups.mpr ⟨rfl, mem_labels.mp hl⟩
      exact (he _ hg).symm
    · by_cases hl' : l ∈ f.labels
      · exact hf _ (mem_groups.mpr ⟨rfl, mem_labels.mp hl'⟩)
      · rw [targets_eq_nil hl, targets_eq_nil hl']
  · intro h
    exact ⟨fun g hg => by rw [← h, targets_of_mem hg], fun g hg => by rw [h, targets_of_mem hg]⟩

end Edges

end Acceptor
