import Acceptor.Alphabet
import Acceptor.Label

/-!
# Patterns

A pattern is a sequence of items, each a label with the number of characters it may read. In text a
dot stands for any character, every other character for itself, and `*`, `+` and `?` change how
often the item before them is read.

## Main results

* `Pattern.parse`: reading a pattern, which fails at a quantifier that has nothing before it.
* `Pattern.Matches`: the words that a pattern stands for.

## Implementation notes

Items are read onto a stack. `+` keeps one mandatory copy of the top item below an arbitrarily
repeated one, and a quantifier after another one changes the top item again.
-/

namespace Acceptor

/-- How many characters an item reads. -/
inductive Count where
  /-- Exactly one. -/
  | one
  /-- None or one. -/
  | optional
  /-- Any number. -/
  | many
  deriving DecidableEq

/-- A label and how often it is read. -/
structure Item where
  /-- What each character has to be. -/
  label : Label
  /-- How many characters there are. -/
  count : Count
  deriving DecidableEq

namespace Item

/-- The words of an item. -/
def Matches (x : Item) (w : List Char) : Prop :=
  match x.count with
  | .one => ∃ c, w = [c] ∧ x.label.reads c
  | .optional => w = [] ∨ ∃ c, w = [c] ∧ x.label.reads c
  | .many => ∀ c ∈ w, x.label.reads c

end Item

/-- A sequence of items. -/
structure Pattern where
  /-- The items in order. -/
  items : List Item
  deriving DecidableEq

/-- A quantifier with nothing before it, and its place in the pattern. -/
structure NothingToRepeat where
  /-- The quantifier. -/
  quantifier : Char
  /-- The number of characters before it. -/
  index : Nat
  deriving DecidableEq

namespace NothingToRepeat

/-- The complaint about a quantifier with nothing before it. -/
def message (e : NothingToRepeat) : String :=
  s!"Syntax error in regex at {e.index}: '{e.quantifier}' has nothing to repeat"

end NothingToRepeat

namespace Pattern

/-! ### Reading a pattern -/

/-- Whether a character changes how often an item is read. -/
def isQuantifier (c : Char) : Bool := c == '*' || c == '+' || c == '?'

/-- The label of a character that is no quantifier. -/
def atom (c : Char) : Label := if c = '.' then .any else .letter c

/-- The items that a quantifier makes of the last one, the last of them first. -/
def repeated (c : Char) (x : Item) : List Item :=
  if c = '*' then [{ x with count := .many }]
  else if c = '?' then [{ x with count := .optional }]
  else [{ x with count := .many }, { x with count := .one }]

/-- The items read so far, the last one first, after one more character. -/
def push (stack : List Item) (index : Nat) (c : Char) : Except NothingToRepeat (List Item) :=
  if isQuantifier c then
    match stack with
    | [] => .error ⟨c, index⟩
    | x :: below => .ok (repeated c x ++ below)
  else .ok (⟨atom c, .one⟩ :: stack)

/-- Reads characters onto the items read so far; `index` characters came before. -/
def pushAll (stack : List Item) (index : Nat) : List Char → Except NothingToRepeat (List Item)
  | [] => .ok stack
  | c :: cs => (push stack index c).bind fun stack => pushAll stack (index + 1) cs

/-- Reads a pattern. -/
def parse (s : String) : Except NothingToRepeat Pattern :=
  (pushAll [] 0 s.toList).map fun stack => ⟨stack.reverse⟩

/-! ### What a pattern stands for -/

/-- The characters that the items name. -/
def alphabet (p : Pattern) : Alphabet := .ofList (p.items.filterMap (·.label.letter?))

/-- A word matches a sequence of items if it can be cut into words of the items. -/
def ItemsMatch : List Item → List Char → Prop
  | [], w => w = []
  | x :: xs, w => ∃ u v, w = u ++ v ∧ x.Matches u ∧ ItemsMatch xs v

/-- The words of a pattern. -/
def Matches (p : Pattern) (w : List Char) : Prop := ItemsMatch p.items w

end Pattern

end Acceptor
