import Acceptor.Bits
import Acceptor.Sorted
import Std.Data.TreeSet.Lemmas

/-!
# Finite sets of ids

States are numbered from zero, and a set of states is a finite set of numbers. The representation is
canonical, so equality of sets is equality of values, and sets can be ordered to serve as keys.

## Main results

* `IdSet.ext_mem`: a set is determined by its members.
* `mem_insert`, `mem_union`, `mem_inter`, `mem_ofList`, `mem_toList`: one equation per operation.
* `toList_sorted`: the members are listed in strictly increasing order.

## Implementation notes

Small members are kept as the bits of one number, which makes the operations on sets of states fast.
A number with a bit for each id up to any id would not fit into memory, so large members are listed.
-/

namespace Acceptor

/-- The bound below which an id is small. -/
def IdSet.smallBound : Nat := 1048576

/-- A finite set of natural numbers, small and large ones apart. -/
structure IdSet where
  /-- The characteristic bits of the small members. -/
  bits : Nat
  /-- The large members in increasing order. -/
  large : List Nat
  /-- Bits stand for small numbers. -/
  lt_smallBound : ∀ i, bits.testBit i → i < IdSet.smallBound
  /-- Listed numbers are large. -/
  smallBound_le : ∀ i, i ∈ large → IdSet.smallBound ≤ i
  /-- No number is listed twice or out of order. -/
  sorted : large.Pairwise (· < ·)
  deriving DecidableEq

namespace IdSet

variable {s t : IdSet} {i j : Nat}

instance : EmptyCollection IdSet where
  emptyCollection := ⟨0, [], fun _ h => by simp at h, fun _ h => by simp at h, .nil⟩

instance : Inhabited IdSet := ⟨∅⟩

instance : Membership Nat IdSet := ⟨fun s i => s.bits.testBit i ∨ i ∈ s.large⟩

instance : Decidable (i ∈ s) := inferInstanceAs (Decidable (s.bits.testBit i = true ∨ i ∈ s.large))

theorem mem_def : i ∈ s ↔ s.bits.testBit i ∨ i ∈ s.large := .rfl

@[simp] theorem not_mem_empty (i : Nat) : ¬i ∈ (∅ : IdSet) := by
  simp [mem_def, EmptyCollection.emptyCollection]

theorem testBit_bits : s.bits.testBit i ↔ i ∈ s ∧ i < smallBound :=
  ⟨fun h => ⟨.inl h, s.lt_smallBound i h⟩,
    fun ⟨h, hi⟩ => h.elim id fun h => absurd (s.smallBound_le i h) (Nat.not_le.mpr hi)⟩

theorem mem_large : i ∈ s.large ↔ i ∈ s ∧ smallBound ≤ i :=
  ⟨fun h => ⟨.inr h, s.smallBound_le i h⟩,
    fun ⟨h, hi⟩ => h.elim (fun h => absurd (s.lt_smallBound i h) (Nat.not_lt.mpr hi)) id⟩

theorem ext_mem (h : ∀ i, i ∈ s ↔ i ∈ t) : s = t := by
  have hbits : s.bits = t.bits := Nat.eq_of_testBit_eq fun i =>
    Bool.eq_iff_iff.mpr (by rw [testBit_bits, testBit_bits, h])
  have hlarge : s.large = t.large :=
    Sorted.eq_of_mem_iff (fun _ _ => Nat.lt_asymm) s.sorted t.sorted fun i => by
      rw [mem_large, mem_large, h]
  cases s
  cases t
  simp_all

/-! ### Operations -/

/-- The set with `i` added. -/
def insert (s : IdSet) (i : Nat) : IdSet :=
  if h : i < smallBound then
    { s with
      bits := s.bits ||| 1 <<< i
      lt_smallBound := fun j hj => by
        rw [Nat.testBit_or, Nat.one_shiftLeft, Nat.testBit_two_pow, Bool.or_eq_true,
          decide_eq_true_iff] at hj
        exact hj.elim (s.lt_smallBound j) fun e => e ▸ h }
  else
    { s with
      large := Sorted.place i s.large
      smallBound_le := fun j hj =>
        (Sorted.mem_place.mp hj).elim (fun e => e ▸ Nat.not_lt.mp h) (s.smallBound_le j)
      sorted := Sorted.place_sorted (fun _ _ _ => Nat.lt_trans)
        (fun _ _ h hne => (Nat.lt_or_gt_of_ne hne).resolve_left h) s.sorted }

@[simp] theorem mem_insert : i ∈ s.insert j ↔ i = j ∨ i ∈ s := by
  unfold insert
  split
  · simp only [mem_def, Nat.testBit_or, Nat.one_shiftLeft, Nat.testBit_two_pow, Bool.or_eq_true,
      decide_eq_true_eq]
    rw [or_right_comm, or_comm, eq_comm]
  · simp only [mem_def, Sorted.mem_place]
    rw [or_left_comm]

instance : Union IdSet where
  union s t :=
    { bits := s.bits ||| t.bits
      large := Sorted.placeAll s.large t.large
      lt_smallBound := fun i hi => by
        rw [Nat.testBit_or, Bool.or_eq_true] at hi
        exact hi.elim (s.lt_smallBound i) (t.lt_smallBound i)
      smallBound_le := fun i hi =>
        (Sorted.mem_placeAll.mp hi).elim (s.smallBound_le i) (t.smallBound_le i)
      sorted := Sorted.placeAll_sorted (fun _ _ _ => Nat.lt_trans)
        (fun _ _ h hne => (Nat.lt_or_gt_of_ne hne).resolve_left h) t.sorted }

@[simp] theorem mem_union : i ∈ s ∪ t ↔ i ∈ s ∨ i ∈ t := by
  simp only [mem_def, Union.union, Nat.testBit_or, Bool.or_eq_true, Sorted.mem_placeAll]
  exact or_or_or_comm

instance : Inter IdSet where
  inter s t :=
    { bits := s.bits &&& t.bits
      large := s.large.filter (· ∈ t.large)
      lt_smallBound := fun i hi => by
        rw [Nat.testBit_and, Bool.and_eq_true] at hi
        exact s.lt_smallBound i hi.1
      smallBound_le := fun i hi => s.smallBound_le i (List.mem_filter.mp hi).1
      sorted := s.sorted.filter _ }

@[simp] theorem mem_inter : i ∈ s ∩ t ↔ i ∈ s ∧ i ∈ t := by
  have h : i ∈ s ∩ t ↔
      (s.bits.testBit i ∧ t.bits.testBit i) ∨ (i ∈ s.large ∧ i ∈ t.large) := by
    simp [mem_def, Inter.inter, Nat.testBit_and]
  rw [h, testBit_bits, testBit_bits, mem_large, mem_large]
  have := Nat.lt_or_ge i smallBound
  grind

/-- Whether the set has no member. -/
def isEmpty (s : IdSet) : Bool := s == ∅

theorem isEmpty_iff : s.isEmpty ↔ ∀ i, ¬i ∈ s := by
  simp only [isEmpty, beq_iff_eq]
  exact ⟨fun h i => h ▸ not_mem_empty i, fun h => ext_mem fun i => by simp [h i]⟩

/-- Whether two sets share a member. -/
def meets (s t : IdSet) : Bool := !(s ∩ t).isEmpty

theorem meets_iff : s.meets t ↔ ∃ i, i ∈ s ∧ i ∈ t := by
  have h : s.meets t ↔ ¬∀ i, ¬i ∈ s ∩ t := by rw [← isEmpty_iff]; simp [meets]
  rw [h]
  simp

/-- Whether every member of `s` is a member of `t`. -/
def isSubset (s t : IdSet) : Bool := s ∩ t == s

theorem isSubset_iff : s.isSubset t ↔ ∀ i, i ∈ s → i ∈ t := by
  simp only [isSubset, beq_iff_eq]
  constructor
  · intro h i hi
    exact (mem_inter.mp (h ▸ hi)).2
  · intro h
    exact ext_mem fun i => by simpa using h i

/-- The set of the numbers of a list. -/
def ofList (is : List Nat) : IdSet := is.foldl insert ∅

@[simp] theorem mem_foldl_insert {is : List Nat} : i ∈ is.foldl insert s ↔ i ∈ s ∨ i ∈ is := by
  induction is generalizing s with
  | nil => simp
  | cons j is ih => grind [mem_insert]

@[simp] theorem mem_ofList {is : List Nat} : i ∈ ofList is ↔ i ∈ is := by simp [ofList]

/-! ### Listing the members -/

/-- The members in increasing order. -/
def toList (s : IdSet) : List Nat := Bits.places s.bits ++ s.large

@[simp] theorem mem_toList : i ∈ s.toList ↔ i ∈ s := by simp [toList, mem_def]

theorem toList_sorted (s : IdSet) : s.toList.Pairwise (· < ·) :=
  List.pairwise_append.mpr ⟨Bits.places_sorted _, s.sorted, fun i hi j hj =>
    Nat.lt_of_lt_of_le (s.lt_smallBound i (Bits.mem_places.mp hi)) (s.smallBound_le j hj)⟩

/-! ### Sets as keys -/

instance : Ord IdSet := ⟨compareLex (compareOn bits) (compareOn large)⟩

instance : Std.TransOrd IdSet :=
  inferInstanceAs (Std.TransCmp (compareLex (compareOn bits) (compareOn large)))

instance : Std.LawfulEqOrd IdSet where
  eq_of_compare {s t} h := by
    have ⟨hbits, hlarge⟩ := compareLex_eq_eq.mp h
    have hbits : s.bits = t.bits := Std.compare_eq_iff_eq.mp hbits
    have hlarge : s.large = t.large := Std.compare_eq_iff_eq.mp hlarge
    exact ext_mem fun i => by rw [mem_def, mem_def, hbits, hlarge]

end IdSet

end Acceptor
