import Acceptor.Description

/-!
# Reading line by line

Reading a description, as a machine that takes one line after the other. What it knows between two
lines is which lines are still due and the graph so far. A line is all that a step looks at, and an
error of a step is an error of that line. When there are no more lines, nothing may be due.

## Main definitions

* `Description.rowsFrom`: the lines of a text that are not blank, with their numbers.
* `Description.Due`, `Description.step`, `Description.finish`: the machine.
* `Description.readRows`: what the machine makes of some lines.

## Implementation notes

The words of the lines are those that a cursor finds on a text that consists of the one line. So
nothing of the reading of words or of a header is said anew.
-/

namespace Acceptor

namespace Description

/-- A line of a text and its number. -/
structure Row where
  /-- The number of the line. -/
  number : Nat
  /-- The characters of the line. -/
  letters : List Char

namespace Row

/-- The cursor before the line, if nothing follows it. -/
def start (row : Row) : Cursor := ⟨⟨row.number, 0⟩, row.letters⟩

/-- The position of the last character of the line. -/
def stop (row : Row) : Position := ⟨row.number, row.letters.length⟩

/-- The words of the line. -/
def words (row : Row) : List Word := Cursor.words ⟨row.number, 0⟩ row.letters

end Row

/-- The lines that are not blank among some lines, of which the first has the number `n`. -/
def number : Nat → List (List Char) → List Row
  | _, [] => []
  | n, line :: lines =>
    if line.all Cursor.isBlank then number (n + 1) lines else ⟨n, line⟩ :: number (n + 1) lines

/-- The lines of a text that are not blank, if its first line has the number `n`. -/
def rowsFrom (n : Nat) (text : List Char) : List Row := number n (Text.cut '\n' text)

/-- What is due between two lines. -/
inductive Due where
  /-- The header. -/
  | header
  /-- A number of state lines and of transition lines, with the graph so far. -/
  | lines (h : Header) (states transitions : Nat) (g : Graph)

/-- What is due after a line. -/
def step : Due → Row → Except Error Due
  | .header, row =>
    (readHeader row.start).map fun (h, _) => .lines h h.stateCount h.transitionCount ∅
  | .lines h (s + 1) t g, row => (addState g row.words).map (.lines h s t)
  | .lines h 0 (t + 1) g, row => (addTransition h g row.words).map (.lines h 0 t)
  | .lines _ 0 0 _, row => .error (.located ⟨row.number, 1⟩ .trailingContent)

/-- What is described if there are no more lines. The position is the one behind the text. -/
def finish (p : Position) : Due → Except Error Description
  | .header => .error (.located p .missingHeader)
  | .lines h (s + 1) _ _ =>
    .error (.located p (.missingStates h.stateCount (h.stateCount - (s + 1))))
  | .lines h 0 (t + 1) _ =>
    .error (.located p (.missingTransitions h.transitionCount (h.transitionCount - (t + 1))))
  | .lines h 0 0 g => do
    checkSaturated h.kind ⟨g, h.initial, h.finals, h.alphabet⟩
    return ⟨h.kind, ⟨g, h.initial, h.finals, h.alphabet⟩⟩

/-- What is described by some lines, with the position behind the text. -/
def readRows (p : Position) (rows : List Row) : Except Error Description :=
  rows.foldlM step .header >>= finish p

end Description

end Acceptor
