import Acceptor.Description.Format

/-!
# Runs of a cursor

A cursor is moved by steps, in any order. What the steps find is described here on the text: the
blank lines at its start, and the words of its first line.

## Main definitions

* `Cursor.Step`, `Cursor.run`: steps and the cursor after them.
* `Cursor.blankLine?`: one blank line at a time.
* `Cursor.BlankLines`, `Cursor.LongestRun`: what blank lines and words are.
-/

namespace Acceptor

namespace Cursor

open Description

/-- What a cursor is asked for. -/
inductive Step where
  /-- The next character, which stays ahead. -/
  | peek
  /-- The next character. -/
  | next
  /-- To go behind the blanks ahead. -/
  | skipBlanks
  /-- To go behind the blank lines ahead. -/
  | skipBlankLines
  /-- The next word of the line. -/
  | nextWord
  /-- The words left on the line. -/
  | lineWords
  /-- The characters up to this one. -/
  | nextUntil (x : Char)
  deriving DecidableEq

/-- The cursor after a step. -/
def step (c : Cursor) : Step → Cursor
  | .peek => c
  | .next => c.next
  | .skipBlanks => c.skipBlanks
  | .skipBlankLines => c.skipBlankLines
  | .nextWord => c.nextWord.2
  | .lineWords => c.lineWords.2
  | .nextUntil x => (c.nextUntil x).2

/-- The cursor after some steps. -/
def run (c : Cursor) (steps : List Step) : Cursor := steps.foldl step c

/-- The cursor behind the blank line ahead, if there is one. The end of the text ends a line that
has a character. -/
def blankLine? (c : Cursor) : Option Cursor :=
  let d := c.skipBlanks
  if d.peek = some '\n' then some d.next
  else if d.atEnd ∧ ¬c.atEnd then some d
  else none

/-- A text that consists of blank lines, if `rest` follows. The end of the text ends a line. -/
inductive BlankLines (rest : List Char) : List Char → Prop where
  /-- No line. -/
  | nil : BlankLines rest []
  /-- A blank line with its line break, and blank lines after it. -/
  | line {b xs : List Char} : Blank b → BlankLines rest xs → BlankLines rest (b ++ '\n' :: xs)
  /-- The blanks at the end of the text. -/
  | last {b : List Char} : Blank b → rest = [] → BlankLines rest b

/-- Between `b` and `r`, the characters `x` are a longest run of characters that are no blanks. -/
structure LongestRun (b x r : List Char) : Prop where
  /-- There is a character. -/
  ne_nil : x ≠ []
  /-- No character is a blank. -/
  not_blank : ∀ c ∈ x, ¬isBlank c
  /-- The run does not start further on the left. -/
  before : ∀ c ∈ b.getLast?, isBlank c
  /-- It does not go on on the right. -/
  after : ∀ c ∈ r.head?, isBlank c

end Cursor

end Acceptor
