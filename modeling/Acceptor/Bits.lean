/-!
# The set bits of a number

The places of the set bits of a number are listed by halving: a block of bits is the block of its
low half followed by that of its high half, and a block without a set bit is not looked into. So a
listing takes time for the places listed, however large they are.

## Main results

* `Bits.mem_places`, `Bits.places_sorted`: the places are those of the set bits, increasing.
-/

namespace Acceptor

namespace Bits

variable {i j : Nat}

/-- The number of bits of a block that can be halved `k` times. -/
def blockSize (k : Nat) : Nat := 1 <<< k

theorem blockSize_succ (k : Nat) : blockSize (k + 1) = blockSize k + blockSize k := by
  rw [blockSize, Nat.shiftLeft_succ, Nat.two_mul, blockSize]

/-- The places of the set bits in a block that can be halved `k` times, counted from `i`. -/
def placesFrom : Nat → Nat → Nat → List Nat
  | 0, i, b => if b = 0 then [] else [i]
  | k + 1, i, b =>
    if b = 0 then []
    else
      let high := b >>> blockSize k
      placesFrom k i (b - high <<< blockSize k) ++ placesFrom k (i + blockSize k) high

theorem testBit_low {b n t : Nat} : (b - b >>> n <<< n).testBit t ↔ t < n ∧ b.testBit t := by
  rw [Nat.shiftRight_eq_div_pow, Nat.shiftLeft_eq, Nat.mul_comm, ← Nat.mod_eq_sub,
    Nat.testBit_mod_two_pow, Bool.and_eq_true, decide_eq_true_iff]

theorem testBit_high {b n t : Nat} : (b >>> n).testBit t ↔ b.testBit (n + t) := by
  rw [Nat.testBit_shiftRight]

theorem mem_placesFrom {k b : Nat} (hb : ∀ t, b.testBit t → t < blockSize k) :
    j ∈ placesFrom k i b ↔ ∃ t, j = i + t ∧ b.testBit t := by
  induction k generalizing i b with
  | zero =>
    have h0 : ∀ t, b.testBit t → t = 0 := fun t ht => Nat.lt_one_iff.mp (hb t ht)
    rw [placesFrom]
    split
    · next h => simp [h]
    · next h =>
      obtain ⟨t, ht⟩ := Nat.exists_testBit_of_ne_zero h
      obtain rfl := h0 t ht
      rw [List.mem_singleton]
      exact ⟨fun h => ⟨0, h, ht⟩, fun ⟨u, h, hu⟩ => by rw [h, h0 u hu, Nat.add_zero]⟩
  | succ k ih =>
    rw [placesFrom]
    split
    · next h => simp [h]
    · rw [List.mem_append, ih fun t ht => (testBit_low.mp ht).1, ih fun t ht => ?_]
      · simp only [testBit_low, testBit_high]
        constructor
        · rintro (⟨t, rfl, -, ht⟩ | ⟨t, rfl, ht⟩)
          · exact ⟨t, rfl, ht⟩
          · exact ⟨blockSize k + t, Nat.add_assoc .., ht⟩
        · rintro ⟨t, rfl, ht⟩
          rcases Nat.lt_or_ge t (blockSize k) with hlt | hle
          · exact .inl ⟨t, rfl, hlt, ht⟩
          · exact .inr ⟨t - blockSize k, by omega, by rwa [Nat.add_sub_cancel' hle]⟩
      · have := hb _ (testBit_high.mp ht)
        rw [blockSize_succ] at this
        omega

theorem placesFrom_sorted {k b : Nat} (hb : ∀ t, b.testBit t → t < blockSize k) :
    (placesFrom k i b).Pairwise (· < ·) := by
  induction k generalizing i b with
  | zero => rw [placesFrom]; split <;> simp
  | succ k ih =>
    rw [placesFrom]
    split
    · exact .nil
    · have hlow : ∀ t, (b - b >>> blockSize k <<< blockSize k).testBit t → t < blockSize k :=
        fun t ht => (testBit_low.mp ht).1
      have hhigh : ∀ t, (b >>> blockSize k).testBit t → t < blockSize k := fun t ht => by
        have := hb _ (testBit_high.mp ht)
        rw [blockSize_succ] at this
        omega
      refine List.pairwise_append.mpr ⟨ih hlow, ih hhigh, fun x hx y hy => ?_⟩
      obtain ⟨t, rfl, ht⟩ := (mem_placesFrom hlow).mp hx
      obtain ⟨u, rfl, -⟩ := (mem_placesFrom hhigh).mp hy
      have := hlow t ht
      omega

/-- A number of halvings after which one bit is left. -/
def halvings (b : Nat) : Nat := b.log2.log2 + 1

theorem lt_blockSize_halvings {b t : Nat} (ht : b.testBit t) : t < blockSize (halvings b) := by
  have hb : b ≠ 0 := fun h => by simp [h] at ht
  rw [blockSize, Nat.one_shiftLeft]
  exact Nat.lt_of_le_of_lt ((Nat.le_log2 hb).mpr (Nat.ge_two_pow_of_testBit ht)) Nat.lt_log2_self

/-- The places of the set bits in increasing order. -/
def places (b : Nat) : List Nat := placesFrom (halvings b) 0 b

@[simp] theorem mem_places {b : Nat} : i ∈ places b ↔ b.testBit i := by
  simp [places, mem_placesFrom fun _ => lt_blockSize_halvings]

theorem places_sorted (b : Nat) : (places b).Pairwise (· < ·) :=
  placesFrom_sorted fun _ => lt_blockSize_halvings

end Bits

end Acceptor
