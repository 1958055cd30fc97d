/-!
# Edge labels

An edge of an automaton carries a label: a letter, the wildcard that any character may follow, or
the empty move that reads nothing. Only letters belong to alphabets.

## Implementation notes

Labels are ordered letters first, by code point, then the wildcard, then the empty move. The order
shows in answers, so it is defined here and not left to a derived instance.
-/

namespace Acceptor

/-- What an edge reads. -/
inductive Label where
  /-- Exactly this character. -/
  | letter (c : Char)
  /-- Any one character. -/
  | any
  /-- Nothing at all. -/
  | epsilon
  deriving DecidableEq, Inhabited

namespace Label

/-- An edge with this label may be followed when `c` is read. -/
def reads : Label → Char → Bool
  | letter d, c => d == c
  | any, _ => true
  | epsilon, _ => false

@[simp] theorem reads_letter (d c : Char) : (letter d).reads c = (d == c) := rfl

@[simp] theorem reads_any (c : Char) : any.reads c = true := rfl

@[simp] theorem reads_epsilon (c : Char) : epsilon.reads c = false := rfl

/-- The character of a letter. -/
def letter? : Label → Option Char
  | letter c => some c
  | _ => none

theorem letter?_eq_some {l : Label} {c : Char} : l.letter? = some c ↔ l = letter c := by
  cases l <;> simp [letter?]

/-- Letters by code point, then the wildcard, then the empty move. -/
protected def compare : Label → Label → Ordering
  | letter c, letter d => compareOfLessAndEq c d
  | letter _, _ => .lt
  | any, letter _ => .gt
  | any, any => .eq
  | any, epsilon => .lt
  | epsilon, epsilon => .eq
  | epsilon, _ => .gt

instance : Ord Label := ⟨Label.compare⟩

/-- The text of a label in listings. -/
def text : Label → String
  | letter c => c.toString
  | any => "."
  | epsilon => "ε"

/-- The text of a label in drawings, where the two labels that are no letters look alike. -/
def drawnText : Label → String
  | letter c => c.toString
  | any | epsilon => "."

end Label

end Acceptor
