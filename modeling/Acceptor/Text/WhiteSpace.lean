/-!
# White space

The characters with the Unicode property `White_Space`, and trimming texts of them.

## Main results

* `Text.trim_eq_nil`: only white space trims to nothing.
-/

namespace Acceptor

namespace Text

/-- The code points of the white space characters, as ranges with both ends included. -/
def whiteSpace : List (Nat × Nat) :=
  [(0x9, 0xD), (0x20, 0x20), (0x85, 0x85), (0xA0, 0xA0), (0x1680, 0x1680), (0x2000, 0x200A),
    (0x2028, 0x2029), (0x202F, 0x202F), (0x205F, 0x205F), (0x3000, 0x3000)]

/-- Whether a character is white space. -/
def isWhiteSpace (c : Char) : Bool := whiteSpace.any fun r => r.1 ≤ c.toNat && c.toNat ≤ r.2

/-- A text without the white space at its two ends. -/
def trim (cs : List Char) : List Char :=
  ((cs.dropWhile isWhiteSpace).reverse.dropWhile isWhiteSpace).reverse

theorem trim_eq_nil {cs : List Char} : trim cs = [] ↔ ∀ c ∈ cs, isWhiteSpace c := by
  have hd (ds : List Char) : ds.dropWhile isWhiteSpace = [] ↔ ∀ c ∈ ds, isWhiteSpace c := by
    induction ds with
    | nil => simp
    | cons d ds ih => by_cases h : isWhiteSpace d <;> simp [h, ih]
  rw [trim, List.reverse_eq_nil_iff, hd]
  simp only [List.mem_reverse]
  refine ⟨fun h => ?_, fun h c hc => h c ((List.dropWhile_sublist _).subset hc)⟩
  have hall : (cs.dropWhile isWhiteSpace).dropWhile isWhiteSpace = [] := (hd _).mpr h
  rw [← hd]
  cases hcs : cs.dropWhile isWhiteSpace with
  | nil => rfl
  | cons d ds =>
    have hfirst := List.head?_dropWhile_not isWhiteSpace cs
    have hsp := h d (by simp [hcs])
    simp [hcs, hsp] at hfirst

end Text

end Acceptor
