import Acceptor.IdSet.FiniteSets

/-!
# Bitmaps are finite sets

A registry of bitmaps is compared with a registry of finite sets of numbers. The comparison is the
map that forgets lengths: it commutes with every step whose ids a bitmap can take, so answers are
alike along every run, however long the bitmaps were made and however they have grown. The one
thing a bitmap cannot do is take the id `idBound`, since its length would be too great to count;
such a step fails, and the run fails with it.

## Main results

* `Bitmap.ones_eq_sort`: a bitmap lists the members of its set in increasing order.
* `IdSet.Registry.perform?_sets`: one step on bitmaps is that step on their sets.
* `IdSet.Registry.answers?_eq_finiteSets`: the answers along a run.
-/

namespace Acceptor

open IdSet

namespace Bitmap

variable {b c : Bitmap} {q : Nat} {qs : List Nat} {new : Bool}

/-! ### The set of a bitmap -/

/-- The set of the ids whose bits are set. -/
def finset (b : Bitmap) : Finset ℕ := b.ones.toFinset

@[simp] theorem mem_finset : q ∈ b.finset ↔ q ∈ b := by simp [finset]

@[simp] theorem finset_empty (capacity : Nat) : (empty capacity).finset = ∅ := by
  ext q
  simp

@[simp] theorem finset_union : (b.union c).finset = b.finset ∪ c.finset := by
  ext q
  simp

/-- The set bits are listed in the order of the ids. -/
theorem ones_eq_sort (b : Bitmap) : b.ones = b.finset.sort := by
  have hnodup : b.ones.Nodup := b.ones_sorted.imp Nat.ne_of_lt
  exact ((List.toFinset_sort _ hnodup).mpr (b.ones_sorted.imp Nat.le_of_lt)).symm

theorem finset_of_insert? (h : b.insert? q = some (new, c)) :
    new = decide (q ∉ b.finset) ∧ c.finset = b.finset ∪ {q} := by
  obtain ⟨hnew, hmem⟩ := mem_of_insert? h
  refine ⟨Bool.eq_iff_iff.mpr (by simpa using hnew), ?_⟩
  ext i
  simp [hmem]

/-- An id below the bound is added, as to a set. -/
theorem exists_insert? (hq : q < idBound) : ∃ c, b.insert? q = some (decide (q ∉ b.finset), c) ∧
    c.finset = b.finset ∪ {q} := by
  cases h : b.insert? q with
  | none => exact absurd hq (Nat.not_lt.mpr (insert?_eq_none.mp h))
  | some p =>
    obtain ⟨hnew, hc⟩ := finset_of_insert? h
    exact ⟨p.2, by rw [← hnew], hc⟩

theorem foldlM_eq_none (h : ∃ q ∈ qs, idBound ≤ q) :
    qs.foldlM (fun b i => (b.insert? i).map Prod.snd) b = none := by
  induction qs generalizing b with
  | nil => simp at h
  | cons i qs ih =>
    rw [List.foldlM_cons]
    cases hi : b.insert? i with
    | none => rfl
    | some p =>
      obtain ⟨q, hq, hle⟩ := h
      rcases List.mem_cons.mp hq with rfl | hq
      · simp [insert?_eq_none.mpr hle] at hi
      · exact ih ⟨q, hq, hle⟩

theorem exists_foldlM (h : ∀ q ∈ qs, q < idBound) :
    ∃ c, qs.foldlM (fun b i => (b.insert? i).map Prod.snd) b = some c ∧
      c.finset = b.finset ∪ qs.toFinset := by
  induction qs generalizing b with
  | nil => exact ⟨b, rfl, by simp⟩
  | cons i qs ih =>
    obtain ⟨d, hd, hset⟩ := exists_insert? (b := b) (h i (by simp))
    obtain ⟨c, hc, hset'⟩ := ih (b := d) fun q hq => h q (List.mem_cons_of_mem _ hq)
    refine ⟨c, ?_, ?_⟩
    · rw [List.foldlM_cons, hd]
      exact hc
    · rw [hset', hset]
      ext q
      simp

theorem collect?_eq_none (h : ∃ q ∈ qs, idBound ≤ q) : collect? qs = none := foldlM_eq_none h

theorem exists_collect? (h : ∀ q ∈ qs, q < idBound) :
    ∃ c, collect? qs = some c ∧ c.finset = qs.toFinset := by
  obtain ⟨c, hc, hset⟩ := exists_foldlM (b := empty 0) h
  exact ⟨c, hc, by simpa using hset⟩

/-! ### Answers -/

theorem contains_eq (b : Bitmap) (q : Nat) : b.contains q = decide (q ∈ b.finset) :=
  Bool.eq_iff_iff.mpr (by simp)

theorem isEmpty_eq (b : Bitmap) : b.isEmpty = decide (b.finset = ∅) := by
  refine Bool.eq_iff_iff.mpr ?_
  simp [isEmpty_iff, Finset.eq_empty_iff_forall_notMem]

theorem size_eq (b : Bitmap) : b.size = b.finset.card := by
  rw [size, ones_eq_sort, Finset.length_sort]

theorem meets_eq (b c : Bitmap) : b.meets c = decide (b.finset ∩ c.finset).Nonempty := by
  refine Bool.eq_iff_iff.mpr ?_
  rw [meets_iff, decide_eq_true_iff]
  simp [Finset.Nonempty]

theorem isSubset_eq (b c : Bitmap) : b.isSubset c = decide (b.finset ⊆ c.finset) := by
  refine Bool.eq_iff_iff.mpr ?_
  simp [isSubset_iff, Finset.subset_iff]

theorem agrees_eq (b c : Bitmap) : b.agrees c = decide (b.finset = c.finset) := by
  refine Bool.eq_iff_iff.mpr ?_
  simp [agrees_iff, Finset.ext_iff]

end Bitmap

namespace IdSet

namespace Registry

variable {r : Registry} {step : Step} {steps : List Step}

/-- The sets of the bitmaps of a registry. -/
def sets (r : Registry) : FiniteSets := r.map Bitmap.finset

@[simp] theorem size_sets : r.sets.size = r.size := by simp [sets]

@[simp] theorem getElem?_sets (i : Nat) : r.sets[i]? = (r[i]?).map Bitmap.finset := by simp [sets]

@[simp] theorem sets_push (b : Bitmap) : sets (r.push b) = r.sets.push b.finset := by simp [sets]

@[simp] theorem sets_setIfInBounds (i : Nat) (b : Bitmap) :
    sets (r.setIfInBounds i b) = r.sets.setIfInBounds i b.finset := by
  simp [sets]

theorem perform?_eq_none (h : ∃ q ∈ step.ids, idBound ≤ q) : r.perform? step = none := by
  cases step with
  | single q n =>
    have hq : idBound ≤ q := by simpa [Step.ids] using h
    simp [perform?, Bitmap.insert?_eq_none.mpr hq]
  | collect qs =>
    have hqs : Bitmap.collect? qs = none := Bitmap.collect?_eq_none h
    simp [perform?, hqs]
  | insert i q =>
    have hq : idBound ≤ q := by simpa [Step.ids] using h
    cases hi : r[i]? <;> simp [perform?, hi, Bitmap.insert?_eq_none.mpr hq]
  | _ => simp [Step.ids] at h

theorem perform?_sets (h : ∀ q ∈ step.ids, q < idBound) :
    (r.perform? step).map (Prod.map sets id) = r.sets.perform? step := by
  cases step with
  | empty n => simp [perform?, FiniteSets.perform?, make]
  | single q n =>
    obtain ⟨c, hc, hset⟩ := Bitmap.exists_insert? (b := .empty n) (h q (by simp [Step.ids]))
    simp [perform?, FiniteSets.perform?, make, hc, hset]
  | collect qs =>
    have hqs : ∀ q ∈ qs, q < idBound := h
    obtain ⟨c, hc, hset⟩ := Bitmap.exists_collect? hqs
    simp [perform?, FiniteSets.perform?, make, hc, hset]
  | copy i => cases hi : r[i]? <;> simp [perform?, FiniteSets.perform?, make, hi]
  | insert i q =>
    cases hi : r[i]? with
    | none => simp [perform?, FiniteSets.perform?, hi]
    | some b =>
      obtain ⟨c, hc, hset⟩ := Bitmap.exists_insert? (b := b) (h q (by simp [Step.ids]))
      simp [perform?, FiniteSets.perform?, hi, hc, hset, Bitmap.ones_eq_sort]
  | unite i j =>
    cases hi : r[i]? <;> cases hj : r[j]? <;>
      simp [perform?, FiniteSets.perform?, hi, hj, Bitmap.ones_eq_sort]
  | contains i q =>
    cases hi : r[i]? <;> simp [perform?, FiniteSets.perform?, hi, Bitmap.contains_eq]
  | isEmpty i =>
    cases hi : r[i]? <;> simp [perform?, FiniteSets.perform?, hi, Bitmap.isEmpty_eq]
  | size i => cases hi : r[i]? <;> simp [perform?, FiniteSets.perform?, hi, Bitmap.size_eq]
  | members i =>
    cases hi : r[i]? <;> simp [perform?, FiniteSets.perform?, hi, Bitmap.ones_eq_sort]
  | text i =>
    cases hi : r[i]? <;> simp [perform?, FiniteSets.perform?, hi, Bitmap.text, Bitmap.ones_eq_sort]
  | meets i j =>
    cases hi : r[i]? <;> cases hj : r[j]? <;>
      simp [perform?, FiniteSets.perform?, hi, hj, Bitmap.meets_eq]
  | isSubset i j =>
    cases hi : r[i]? <;> cases hj : r[j]? <;>
      simp [perform?, FiniteSets.perform?, hi, hj, Bitmap.isSubset_eq]
  | equal i j =>
    cases hi : r[i]? <;> cases hj : r[j]? <;>
      simp [perform?, FiniteSets.perform?, hi, hj, Bitmap.agrees_eq]

/-! ### Runs -/

theorem answers?_eq_none (h : ∃ step ∈ steps, ∃ q ∈ step.ids, idBound ≤ q) :
    answers? perform? r steps = none := by
  induction steps generalizing r with
  | nil => simp at h
  | cons step steps ih =>
    rw [answers?]
    cases hstep : r.perform? step with
    | none => rfl
    | some p =>
      obtain ⟨bad, hmem, hids⟩ := h
      rcases List.mem_cons.mp hmem with rfl | hmem
      · simp [perform?_eq_none hids] at hstep
      · simp [ih ⟨bad, hmem, hids⟩]

theorem answers?_sets (h : ∀ step ∈ steps, ∀ q ∈ step.ids, q < idBound) :
    answers? perform? r steps = answers? FiniteSets.perform? r.sets steps := by
  induction steps generalizing r with
  | nil => rfl
  | cons step steps ih =>
    obtain ⟨hstep, hsteps⟩ := List.forall_mem_cons.mp h
    rw [answers?, answers?, ← perform?_sets hstep]
    cases r.perform? step with
    | none => rfl
    | some p => simp [ih hsteps]

/-- The answers to a run are those about finite sets, unless it puts an id at the bound or above
into a set. -/
theorem answers?_eq_ite : answers? perform? r steps =
    if ∀ step ∈ steps, ∀ q ∈ step.ids, q < idBound
      then answers? FiniteSets.perform? r.sets steps else none := by
  split
  · next h => exact answers?_sets h
  · next h => exact answers?_eq_none (by simpa using h)

/-- Capacities that are announced make no difference. -/
theorem answers?_unannounced : answers? perform? (#[] : Registry) (steps.map Step.unannounced) =
    answers? perform? (#[] : Registry) steps := by
  have hids (step : Step) : step.unannounced.ids = step.ids := by cases step <;> rfl
  have hperform (r : FiniteSets) (step : Step) :
      r.perform? step.unannounced = r.perform? step := by cases step <;> rfl
  have hanswers (r : FiniteSets) : answers? FiniteSets.perform? r (steps.map Step.unannounced) =
      answers? FiniteSets.perform? r steps := by
    induction steps generalizing r with
    | nil => rfl
    | cons step steps ih => simp only [List.map_cons, answers?, hperform, ih]
  simp only [answers?_eq_ite, List.forall_mem_map, hids, hanswers]

theorem perform?_unite {r' : Registry} {i j : Nat} {a : Answer}
    (h : r.perform? (.unite i j) = some (r', a)) :
    r'.size = r.size ∧ ∀ k, k ≠ i → r'[k]? = r[k]? := by
  simp only [perform?, Option.bind_eq_bind, Option.bind_eq_some_iff, Option.pure_def,
    Option.some.injEq, Prod.mk.injEq] at h
  obtain ⟨b, -, c, -, rfl, -⟩ := h
  exact ⟨by simp, fun k hk => Array.getElem?_setIfInBounds_ne hk.symm⟩

/-- **Bitmaps answer as finite sets do.** Steps on bitmaps, made one after the other from the start,
give the answers that they give on finite sets of numbers, provided that every id put into a set is
below the bound. An id at the bound or above fails. Steps that announce other capacities give the
same answers, and uniting changes one bitmap only. -/
theorem answers?_eq_finiteSets (steps : List Step) :
    (answers? perform? (#[] : Registry) steps =
      if ∀ step ∈ steps, ∀ q ∈ step.ids, q < idBound
        then answers? FiniteSets.perform? #[] steps else none) ∧
    (∀ steps' : List Step, steps'.map Step.unannounced = steps.map Step.unannounced →
      answers? perform? (#[] : Registry) steps' = answers? perform? (#[] : Registry) steps) ∧
    ∀ (r r' : Registry) (i j : Nat) (a : Answer), r.perform? (.unite i j) = some (r', a) →
      r'.size = r.size ∧ ∀ k, k ≠ i → r'[k]? = r[k]? := by
  refine ⟨by simpa [sets] using answers?_eq_ite (r := #[]), fun steps' h => ?_,
    fun _ _ _ _ _ h => perform?_unite h⟩
  rw [← answers?_unannounced, h, answers?_unannounced]

/-- Sets of several lengths, two of which grow: one by an id past its end, one by a longer one. -/
def outgrowing : List Step :=
  [.single 3 2, .empty 64, .insert 1 70, .unite 0 1, .collect [70, 3, 70], .equal 0 2, .members 1]

theorem answers?_eq_finiteSets_outgrowing :
    (∀ step ∈ outgrowing, ∀ q ∈ step.ids, q < idBound) ∧
    answers? FiniteSets.perform? #[] outgrowing = some [.number 0, .number 1, .added true [70],
      .members [3, 70], .number 2, .truth true, .members [70]] ∧
    answers? perform? (#[] : Registry) (.single 3 500 :: .empty 0 :: outgrowing.drop 2) =
      answers? perform? (#[] : Registry) outgrowing ∧
    ∃ r a, perform? #[.empty 3, .empty 64] (.unite 0 1) = some (r, a) ∧
      r.size = 2 ∧ ∀ k, k ≠ 0 → r[k]? = (#[.empty 3, .empty 64] : Registry)[k]? := by
  have hids : ∀ step ∈ outgrowing, ∀ q ∈ step.ids, q < idBound := by decide
  have hlaw := answers?_eq_finiteSets outgrowing
  refine ⟨hids, ?_, hlaw.2.1 _ rfl, _, _, rfl, hlaw.2.2 #[.empty 3, .empty 64] _ 0 1 _ rfl⟩
  rw [← (hlaw.1.trans (if_pos hids))]
  decide +kernel

/-- The last number of 64 bits is an id that no bitmap can take, while a finite set can. -/
theorem not_forall_answers?_eq : ¬∀ steps : List Step,
    answers? perform? (#[] : Registry) steps = answers? FiniteSets.perform? #[] steps := by
  intro h
  have hfails : answers? perform? (#[] : Registry) [.empty 0, .insert 0 idBound] = none :=
    answers?_eq_none ⟨.insert 0 idBound, by simp, idBound, by simp [Step.ids], Nat.le_refl _⟩
  have hsteps := h [.empty 0, .insert 0 idBound]
  rw [hfails] at hsteps
  simp [answers?, FiniteSets.perform?] at hsteps

end Registry

end IdSet

end Acceptor
