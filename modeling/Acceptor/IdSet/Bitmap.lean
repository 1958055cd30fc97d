import Acceptor.IdSet.Held

/-!
# Bitmaps that grow

A bitmap holds a set of ids in memory as a vector with one bit for each id below its length. It
starts with a length that is announced and grows when an id past its end is added, or when it is
united with a longer one. Bitmaps of different lengths can hold the same set.

## Main results

* `Bitmap.insert?_eq_none`, `Bitmap.mem_of_insert?`: when an id can be added, and what that does.
* `Bitmap.mem_union`, `Bitmap.contains_iff`, `Bitmap.mem_ones`: one equation per operation.

## Implementation notes

The bits are those of one number, so a bitmap takes memory for its highest set bit and not for its
length. Only `contains` looks at the length before a bit is read, and only `room?` before one is
set.
-/

namespace Acceptor

/-- A vector of bits. -/
structure Bitmap where
  /-- The number of bits. -/
  length : Nat
  /-- The bits, those of small ids lowest. -/
  bits : Nat
  /-- A set bit is one of the bits. -/
  lt_length : ∀ i, bits.testBit i → i < length
  /-- Lengths are numbers of 64 bits. -/
  length_le : length ≤ IdSet.idBound

namespace Bitmap

open IdSet (idBound)

variable {b c : Bitmap} {i j : Nat} {new : Bool}

instance : Membership Nat Bitmap := ⟨fun b i => b.bits.testBit i⟩

instance : Decidable (i ∈ b) := inferInstanceAs (Decidable (b.bits.testBit i = true))

theorem mem_def : i ∈ b ↔ b.bits.testBit i := .rfl

/-! ### Making and growing -/

/-- The bitmap of a given length without a set bit. No length is beyond the largest one. -/
def empty (capacity : Nat) : Bitmap where
  length := min capacity idBound
  bits := 0
  lt_length _ h := by simp at h
  length_le := Nat.min_le_right ..

@[simp] theorem not_mem_empty (capacity : Nat) : i ∉ empty capacity := by simp [mem_def, empty]

/-- The bitmap with bits added up to the length `n`, unless it has that many. -/
def grow (b : Bitmap) (n : Nat) (h : n ≤ idBound) : Bitmap where
  length := max b.length n
  bits := b.bits
  lt_length i hi := Nat.lt_of_lt_of_le (b.lt_length i hi) (Nat.le_max_left ..)
  length_le := Nat.max_le.mpr ⟨b.length_le, h⟩

@[simp] theorem mem_grow {n : Nat} {h : n ≤ idBound} : i ∈ b.grow n h ↔ i ∈ b := .rfl

/-! ### Adding ids -/

/-- The bitmap with room for the bit of `i`, unless it needed a length that is no number of 64
bits. -/
def room? (b : Bitmap) (i : Nat) : Option { c : Bitmap // i < c.length } :=
  if h : i < b.length then some ⟨b, h⟩
  else if h : i < idBound then some ⟨b.grow (i + 1) h, Nat.le_max_right ..⟩
  else none

/-- The bitmap with the bit of `i` set. -/
def put (b : Bitmap) (i : Nat) (h : i < b.length) : Bitmap where
  length := b.length
  bits := b.bits ||| 1 <<< i
  lt_length j hj := by
    rw [Nat.testBit_or, Nat.one_shiftLeft, Nat.testBit_two_pow, Bool.or_eq_true,
      decide_eq_true_iff] at hj
    exact hj.elim (b.lt_length j) fun e => e ▸ h
  length_le := b.length_le

/-- Whether `i` is new, and the bitmap with it, if there can be room for it. -/
def insert? (b : Bitmap) (i : Nat) : Option (Bool × Bitmap) :=
  (b.room? i).map fun c => (!c.1.bits.testBit i, c.1.put i c.2)

/-- The bitmap of the ids of a list, added one after the other. -/
def collect? (is : List Nat) : Option Bitmap :=
  is.foldlM (fun b i => (b.insert? i).map Prod.snd) (empty 0)

theorem mem_room {c : { c : Bitmap // i < c.length }} (h : b.room? i = some c) :
    j ∈ c.1 ↔ j ∈ b := by
  unfold room? at h
  split at h
  · cases h
    rfl
  · split at h
    · cases h
      rfl
    · cases h

theorem room?_eq_none : b.room? i = none ↔ idBound ≤ i := by
  have hle := b.length_le
  unfold room?
  split
  · simp
    omega
  · split <;> simp <;> omega

@[simp] theorem mem_put {h : i < b.length} : j ∈ b.put i h ↔ j = i ∨ j ∈ b := by
  simp only [mem_def, put, Nat.testBit_or, Nat.one_shiftLeft, Nat.testBit_two_pow, Bool.or_eq_true,
    decide_eq_true_eq]
  rw [or_comm, eq_comm]

/-- Ids below the bound can be added, whatever the length, and no others. -/
theorem insert?_eq_none : b.insert? i = none ↔ idBound ≤ i := by
  rw [insert?, Option.map_eq_none_iff, room?_eq_none]

theorem mem_of_insert? (h : b.insert? i = some (new, c)) :
    (new ↔ i ∉ b) ∧ ∀ j, j ∈ c ↔ j = i ∨ j ∈ b := by
  obtain ⟨d, hd, hdc⟩ := Option.map_eq_some_iff.mp h
  cases hdc
  have hnew : (!d.1.bits.testBit i) = true ↔ i ∉ b := by
    rw [← mem_room hd, mem_def]
    simp
  exact ⟨hnew, fun j => by rw [mem_put, mem_room hd]⟩

/-! ### Uniting -/

/-- The bitmap grown to the length of another one, with the set bits of both. -/
def union (b c : Bitmap) : Bitmap where
  length := (b.grow c.length c.length_le).length
  bits := (b.grow c.length c.length_le).bits ||| c.bits
  lt_length i hi := by
    rw [Nat.testBit_or, Bool.or_eq_true] at hi
    rcases hi with hi | hi
    · exact (b.grow c.length c.length_le).lt_length i hi
    · exact Nat.lt_of_lt_of_le (c.lt_length i hi) (Nat.le_max_right ..)
  length_le := (b.grow c.length c.length_le).length_le

@[simp] theorem mem_union : i ∈ b.union c ↔ i ∈ b ∨ i ∈ c := by
  simp [mem_def, union, grow]

/-! ### Asking -/

/-- Whether `i` has a set bit. An id past the end has none. -/
def contains (b : Bitmap) (i : Nat) : Bool := i < b.length && b.bits.testBit i

/-- The ids of the set bits in increasing order. -/
def ones (b : Bitmap) : List Nat := Bits.places b.bits

/-- Whether no bit is set. -/
def isEmpty (b : Bitmap) : Bool := b.bits == 0

/-- The number of set bits. -/
def size (b : Bitmap) : Nat := b.ones.length

/-- Whether a set bit of `b` is set in `c`. -/
def meets (b c : Bitmap) : Bool := b.ones.any c.contains

/-- Whether every set bit of `b` is set in `c`. -/
def isSubset (b c : Bitmap) : Bool := b.ones.all c.contains

/-- Whether both have the same set bits. The lengths are not compared. -/
def agrees (b c : Bitmap) : Bool := b.ones == c.ones

/-- The ids in braces, separated by commas. -/
def text (b : Bitmap) : String := "\x7b" ++ ", ".intercalate (b.ones.map toString) ++ "\x7d"

@[simp] theorem contains_iff : b.contains i ↔ i ∈ b := by
  simp only [contains, Bool.and_eq_true, decide_eq_true_eq, mem_def]
  exact and_iff_right_of_imp (b.lt_length i)

@[simp] theorem mem_ones : i ∈ b.ones ↔ i ∈ b := Bits.mem_places

theorem ones_sorted (b : Bitmap) : b.ones.Pairwise (· < ·) := Bits.places_sorted b.bits

theorem isEmpty_iff : b.isEmpty ↔ ∀ i, i ∉ b := by
  simp only [isEmpty, beq_iff_eq, mem_def, Bool.not_eq_true]
  constructor
  · intro h i
    simp [h]
  · intro h
    exact Nat.eq_of_testBit_eq fun i => by simp [h i]

theorem meets_iff : b.meets c ↔ ∃ i ∈ b, i ∈ c := by simp [meets]

theorem isSubset_iff : b.isSubset c ↔ ∀ i ∈ b, i ∈ c := by simp [isSubset]

theorem agrees_iff : b.agrees c ↔ ∀ i, i ∈ b ↔ i ∈ c := by
  simp only [agrees, beq_iff_eq]
  constructor
  · intro h i
    rw [← mem_ones, h, mem_ones]
  · intro h
    exact Sorted.eq_of_mem_iff (fun _ _ => Nat.lt_asymm) b.ones_sorted c.ones_sorted fun i => by
      rw [mem_ones, mem_ones, h]

end Bitmap

end Acceptor
