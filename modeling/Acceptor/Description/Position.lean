/-!
# Positions in a text

A position names a character by its line and its column, both counted from one. The position before
the first character has column zero, and so has the position of a line break: it stands before the
first character of the next line.

## Main results

* `Position.line_after`: each line break leads to the next line.
* `Position.after_append`: positions move along a text piece by piece.
-/

namespace Acceptor

/-- A line and a column. -/
structure Position where
  /-- The line, from one. -/
  line : Nat
  /-- The column, from one; zero before the first character of the line. -/
  column : Nat
  deriving DecidableEq

namespace Position

variable {p : Position} {c : Char} {cs : List Char}

/-- The position before the first character of a text. -/
def start : Position := ⟨1, 0⟩

/-- The position of a character that follows the one at `p`. -/
def advance (p : Position) (c : Char) : Position :=
  if c = '\n' then ⟨p.line + 1, 0⟩ else ⟨p.line, p.column + 1⟩

/-- The position of the last character of a text that follows the character at `p`. -/
def after (p : Position) (cs : List Char) : Position := cs.foldl advance p

/-- The position one column on. -/
def next (p : Position) : Position := ⟨p.line, p.column + 1⟩

/-- Line and column with a colon between them. -/
def text (p : Position) : String := s!"{p.line}:{p.column}"

@[simp] theorem after_nil : p.after [] = p := rfl

@[simp] theorem after_cons : p.after (c :: cs) = (p.advance c).after cs := rfl

theorem after_append (cs ds : List Char) : p.after (cs ++ ds) = (p.after cs).after ds :=
  List.foldl_append

theorem advance_of_ne (h : c ≠ '\n') : p.advance c = p.next := if_neg h

theorem line_after : (p.after cs).line = p.line + cs.count '\n' := by
  induction cs generalizing p with
  | nil => simp
  | cons c cs ih =>
    rw [after_cons, ih, List.count_cons, advance]
    split
    · next h =>
      simp only [h, beq_self_eq_true, if_true]
      omega
    · next h => simp [h]

theorem after_of_not_mem (h : '\n' ∉ cs) : p.after cs = ⟨p.line, p.column + cs.length⟩ := by
  induction cs generalizing p with
  | nil => simp
  | cons c cs ih =>
    rw [List.mem_cons, not_or] at h
    rw [after_cons, advance_of_ne (Ne.symm h.1), ih h.2]
    simp [next]
    omega

end Position

end Acceptor
