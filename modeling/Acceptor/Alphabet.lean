import Acceptor.Sorted

/-!
# Alphabets

An alphabet is a finite set of characters. It is kept as its strictly increasing list, so two
alphabets with the same characters are equal and listings come out by code point.

## Main results

* `Alphabet.mem_insert`, `Alphabet.mem_ofList`: what the constructions contain.
-/

namespace Acceptor

/-- A finite set of characters, listed by code point. -/
structure Alphabet where
  /-- The characters in increasing order. -/
  letters : List Char
  /-- No character is listed twice or out of order. -/
  sorted : letters.Pairwise (· < ·)
  deriving DecidableEq

namespace Alphabet

instance : EmptyCollection Alphabet := ⟨⟨[], .nil⟩⟩

instance : Inhabited Alphabet := ⟨∅⟩

instance : Membership Char Alphabet := ⟨fun a c => c ∈ a.letters⟩

instance (a : Alphabet) (c : Char) : Decidable (c ∈ a) :=
  inferInstanceAs (Decidable (c ∈ a.letters))

theorem mem_def {a : Alphabet} {c : Char} : c ∈ a ↔ c ∈ a.letters := .rfl

@[simp] theorem not_mem_empty (c : Char) : ¬c ∈ (∅ : Alphabet) := List.not_mem_nil

/-! ### Adding characters -/

/-- The alphabet with `c` added. -/
def insert (a : Alphabet) (c : Char) : Alphabet where
  letters := Sorted.place c a.letters
  sorted :=
    Sorted.place_sorted (fun _ _ _ => Char.lt_trans)
      (fun _ _ hlt hne => Char.not_le.mp fun hle => hne (Char.le_antisymm hle (Char.not_lt.mp hlt)))
      a.sorted

@[simp] theorem mem_insert {a : Alphabet} {c x : Char} : x ∈ a.insert c ↔ x = c ∨ x ∈ a :=
  Sorted.mem_place

/-- The set of the characters of a list. -/
def ofList (cs : List Char) : Alphabet := cs.foldl insert ∅

@[simp] theorem mem_foldl_insert {a : Alphabet} {cs : List Char} {x : Char} :
    x ∈ cs.foldl insert a ↔ x ∈ a ∨ x ∈ cs := by
  induction cs generalizing a with
  | nil => simp
  | cons c cs ih => grind [mem_insert]

@[simp] theorem mem_ofList {cs : List Char} {x : Char} : x ∈ ofList cs ↔ x ∈ cs := by
  simp [ofList]

end Alphabet

end Acceptor
