import Acceptor.Description.Format

/-!
# What the place of an error shows

The position of an error names a line of the text and a column in it. What stands there depends on
the cause. An error about a word points to where the word begins, one about a list to its opening
parenthesis, and one about a line to its first word. If something is missing, the column is the one
behind the end of the line.

## Main definitions

* `Description.StandsAt`, `Description.FirstAt`: a word of a line and where it begins.
* `Description.Cause.Shows`: what an error of this cause points to.
-/

namespace Acceptor

namespace Description

/-- The characters from the given column of a line on are `back`. Columns are counted from one. -/
def GoesOnAt (line : List Char) (column : Nat) (back : List Char) : Prop :=
  ∃ front, line = front ++ back ∧ column = front.length + 1

/-- A word without blanks begins at a column. Blanks or the ends of the line stand around it. -/
def StandsAt (line : List Char) (column : Nat) (word : List Char) : Prop :=
  ∃ front back, line = front ++ (word ++ back) ∧ column = front.length + 1 ∧
    (∀ x ∈ front.getLast?, Cursor.isBlank x) ∧ (∀ x ∈ back.head?, Cursor.isBlank x) ∧
    word ≠ [] ∧ ∀ x ∈ word, ¬Cursor.isBlank x

/-- A word is the first of the line and begins at a column. -/
def FirstAt (line : List Char) (column : Nat) (word : List Char) : Prop :=
  StandsAt line column word ∧ Blank (line.take (column - 1))

/-- The words of a header line that are numerals if nothing is wrong with them: the second and the
third. -/
def countWords (line : List Char) : List (List Char) := ((wordsOf line).drop 1).take 2

/-- A piece of the list whose opening parenthesis stands at a column is, but for white space around
it, the text `item`. -/
def ItemAt (line : List Char) (column : Nat) (item : List Char) : Prop :=
  ∃ inside back, GoesOnAt line column ('(' :: (inside ++ ')' :: back)) ∧ ')' ∉ inside ∧
    item ∈ (Text.cut ',' inside).map Text.trim

/-- What stands at a column of a line to which an error of this cause points. -/
def Cause.Shows (line : List Char) (column : Nat) : Cause → Prop
  | missingHeader | missingField _ | malformedList .closing | missingStates _ _
  | missingTransitions _ _ => column = line.length + 1
  | unknownKind w | trailingArguments w | duplicateState w | undefinedState w | invalidLabel w =>
    StandsAt line column w.toList
  | foreignLetter x | duplicateTransition _ x => StandsAt line column [x]
  | epsilonNotAllowed => StandsAt line column ['"', '"']
  | invalidNumber t => Text.numeral? t.toList = none ∧
    (t.toList ∈ countWords line ∧ StandsAt line column t.toList ∨
      (∀ x ∈ countWords line, Text.numeral? x ≠ none) ∧ ItemAt line column t.toList)
  | malformedList .opening =>
    ∃ x back, GoesOnAt line column (x :: back) ∧ x ≠ '(' ∧ ¬Cursor.isBlank x
  | noInitial | outOfRange _ _ => ∃ back, GoesOnAt line column ('(' :: back)
  | expectedState => ∃ x, FirstAt line column x ∧ x ≠ ['s']
  | expectedTransition => ∃ x, FirstAt line column x ∧ x ≠ ['t']
  | argumentCount e f => (∃ x, FirstAt line column x) ∧ (wordsOf line).length = f ∧ f ≠ e
  | trailingContent => column = 1 ∧ ¬Blank line
  | notSaturated _ => False

end Description

end Acceptor
