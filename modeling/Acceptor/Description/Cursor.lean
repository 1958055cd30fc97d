import Acceptor.Description.Position

/-!
# Cursors

A cursor stands between the characters of a text. It holds the text that is left and the position of
the character before it. Words are separated by blanks: spaces, tabs and carriage returns. No
operation but `skipBlankLines`, `lineWords` and `next` goes past a line break.

## Main results

* `Cursor.Moves`: a cursor moves by taking characters off the text that is left, and its position
  is that of the last character taken.
* `next_moves`, `skipBlanks_moves`, `skipBlankLines_moves`, `nextWord_moves`, `lineWords_moves`,
  `nextUntil_moves`: every operation is such a move.
-/

namespace Acceptor

/-- A place in a text. -/
structure Cursor where
  /-- The position of the character before the cursor. -/
  position : Position
  /-- The text after the cursor. -/
  rest : List Char
  deriving DecidableEq

/-- A word and the position of its first character. -/
structure Word where
  /-- Where the word begins. -/
  position : Position
  /-- The characters. -/
  letters : List Char
  deriving DecidableEq

namespace Word

/-- The word as a string. -/
def text (w : Word) : String := .ofList w.letters

end Word

namespace Cursor

variable {c d e : Cursor} {n : Nat} {x : Char}

/-- Whether a character separates words on a line. -/
def isBlank (x : Char) : Bool := x == ' ' || x == '\t' || x == '\r'

/-- Whether a character can be part of a word. -/
def inWord (x : Char) : Bool := !isBlank x && x != '\n'

/-- The cursor before a text. -/
def ofText (s : String) : Cursor := ⟨.start, s.toList⟩

/-- The cursor `n` characters on, or at the end of the text. -/
def skip (c : Cursor) (n : Nat) : Cursor := ⟨c.position.after (c.rest.take n), c.rest.drop n⟩

/-- The characters ahead that satisfy `p`, up to the first that does not. -/
def ahead (c : Cursor) (p : Char → Bool) : List Char := c.rest.takeWhile p

/-- The cursor after the characters ahead that satisfy `p`. -/
def skipWhile (c : Cursor) (p : Char → Bool) : Cursor := c.skip (c.ahead p).length

/-! ### Operations -/

/-- The next character. -/
def peek (c : Cursor) : Option Char := c.rest.head?

/-- The cursor after the next character. -/
def next (c : Cursor) : Cursor := c.skip 1

/-- Whether the text is used up. -/
def atEnd (c : Cursor) : Bool := c.rest.isEmpty

/-- The cursor after the blanks ahead. -/
def skipBlanks (c : Cursor) : Cursor := c.skipWhile isBlank

/-- The number of characters in the blank lines at the start of a text, of which `n` blanks have
been seen. The end of the text ends a line as well. -/
def blankLines (n : Nat) : List Char → Nat
  | [] => n
  | x :: xs =>
    if x = '\n' then n + 1 + blankLines 0 xs
    else if isBlank x then blankLines (n + 1) xs
    else 0

/-- The cursor after the blank lines ahead. -/
def skipBlankLines (c : Cursor) : Cursor := c.skip (blankLines 0 c.rest)

/-- The next word of the line, if there is one, and the cursor after it. -/
def nextWord (c : Cursor) : Option Word × Cursor :=
  let c := c.skipBlanks
  match c.ahead inWord with
  | [] => (none, c)
  | xs => (some ⟨c.position.next, xs⟩, c.skipWhile inWord)

/-- The words of a line that follows the character at a position. A character joins the word that
begins right after it. -/
def words : Position → List Char → List Word
  | _, [] => []
  | p, x :: xs =>
    let rest := words (p.advance x) xs
    if isBlank x then rest
    else
      match rest with
      | [] => [⟨p.next, [x]⟩]
      | w :: ws =>
        if w.position = p.next.next then ⟨p.next, x :: w.letters⟩ :: ws
        else ⟨p.next, [x]⟩ :: w :: ws

/-- The words left on the line, and the cursor after its line break. -/
def lineWords (c : Cursor) : List Word × Cursor :=
  (words c.position (c.ahead (· != '\n')), (c.skipWhile (· != '\n')).next)

/-- The characters up to `x` on the line and the cursor after `x`, or nothing and the cursor at the
end of the line. -/
def nextUntil (c : Cursor) (x : Char) : Option (List Char) × Cursor :=
  let inside := fun y => y != '\n' && y != x
  let d := c.skipWhile inside
  match d.peek with
  | some y => if y = x ∧ y ≠ '\n' then (some (c.ahead inside), d.next) else (none, d)
  | none => (none, d)

/-! ### Moves -/

/-- The cursor `d` stands after the characters `xs` that lie ahead of `c`. -/
def Moves (c d : Cursor) (xs : List Char) : Prop :=
  c.rest = xs ++ d.rest ∧ d.position = c.position.after xs

theorem Moves.trans {xs ys : List Char} (h : c.Moves d xs) (h' : d.Moves e ys) :
    c.Moves e (xs ++ ys) :=
  ⟨by rw [h.1, h'.1, List.append_assoc], by rw [h'.2, h.2, Position.after_append]⟩

theorem skip_moves (c : Cursor) (n : Nat) : c.Moves (c.skip n) (c.rest.take n) :=
  ⟨(List.take_append_drop n c.rest).symm, rfl⟩

theorem skipWhile_moves (c : Cursor) (p : Char → Bool) : c.Moves (c.skipWhile p) (c.ahead p) := by
  have h := c.skip_moves (c.ahead p).length
  rwa [show c.rest.take (c.ahead p).length = c.ahead p from
    List.prefix_iff_eq_take.mp (List.takeWhile_prefix p) |>.symm] at h

theorem next_moves (c : Cursor) : c.Moves c.next (c.rest.take 1) := c.skip_moves 1

theorem skipBlanks_moves (c : Cursor) : c.Moves c.skipBlanks (c.ahead isBlank) :=
  c.skipWhile_moves isBlank

theorem skipBlankLines_moves (c : Cursor) :
    c.Moves c.skipBlankLines (c.rest.take (blankLines 0 c.rest)) :=
  c.skip_moves _

theorem nextWord_moves (c : Cursor) : ∃ xs, c.Moves c.nextWord.2 xs := by
  rw [nextWord]
  split
  · exact ⟨_, c.skipBlanks_moves⟩
  · exact ⟨_, c.skipBlanks_moves.trans (c.skipBlanks.skipWhile_moves inWord)⟩

theorem lineWords_moves (c : Cursor) : ∃ xs, c.Moves c.lineWords.2 xs :=
  ⟨_, (c.skipWhile_moves _).trans (next_moves _)⟩

theorem nextUntil_moves (c : Cursor) (x : Char) : ∃ xs, c.Moves (c.nextUntil x).2 xs := by
  simp only [nextUntil]
  split
  · split
    · exact ⟨_, (c.skipWhile_moves _).trans (next_moves _)⟩
    · exact ⟨_, c.skipWhile_moves _⟩
  · exact ⟨_, c.skipWhile_moves _⟩

end Cursor

end Acceptor
