import Acceptor.Description
import Acceptor.Pattern.Machine
import Mathlib.Data.List.Forall2

/-!
# The format of descriptions

What a description looks like, line by line and word by word, and what it describes. Nothing here
speaks of cursors or of an order of reading. Line breaks end lines, and blanks separate words.

## Main definitions

* `Description.contentLines`, `Description.wordsOf`: the lines of a text and the words of a line.
* `Description.HeaderLine`, `Description.StateLine`, `Description.TransitionLine`: the three forms
  of lines.
* `Description.Describes`: what a text in the format describes.
-/

namespace Acceptor

namespace Description

/-! ### Lines and words -/

/-- Nothing but blanks. -/
def Blank (cs : List Char) : Prop := ∀ x ∈ cs, Cursor.isBlank x

/-- The words of a line: what stands between blanks. -/
def wordsOf (line : List Char) : List (List Char) :=
  (line.splitOnP Cursor.isBlank).filter (· ≠ [])

/-- The lines of a text that are not blank. -/
def contentLines (text : List Char) : List (List Char) :=
  (Text.cut '\n' text).filter fun line => !line.all Cursor.isBlank

/-! ### Forms of lines -/

/-- The text between the parentheses of a list: white space for the empty list, else numerals
separated by commas. -/
inductive ListText : List Char → List Nat → Prop where
  /-- No number. -/
  | blank {inside : List Char} : (∀ x ∈ inside, Text.isWhiteSpace x) → ListText inside []
  /-- A numeral in each piece, with white space around it. -/
  | numbers {inside : List Char} {is : List Nat} :
    List.Forall₂ (fun piece i => Text.numeral? (Text.trim piece) = some i)
        (Text.cut ',' inside) is →
      ListText inside is

/-- A header line: the kind, the number of states and the number of transitions, and a blank after
them; the list of initial and the list of final states, each up to the next closing parenthesis; and
the word of the alphabet's characters. -/
inductive HeaderLine : List Char → Header → Prop where
  /-- The text before, between and after the lists, and the numbers that are read in it. -/
  | intro {h : Header} {front initial between finals back states transitions letters : List Char}
      {gap : Char} :
    wordsOf front = [h.kind.text.toList, states, transitions] → Cursor.isBlank gap →
    Text.numeral? states = some h.stateCount →
    Text.numeral? transitions = some h.transitionCount →
    ')' ∉ initial → ListText initial h.initial → h.initial ≠ [] →
    Blank between →
    ')' ∉ finals → ListText finals h.finals →
    (∀ i ∈ h.initial ++ h.finals, i < h.stateCount) →
    wordsOf back = [letters] → h.alphabet = .ofList letters →
    HeaderLine
      (front ++ gap :: '(' :: (initial ++ ')' :: (between ++ '(' :: (finals ++ ')' :: back)))) h

/-- A line `s name`. -/
def StateLine (line : List Char) (name : String) : Prop := wordsOf line = [['s'], name.toList]

/-- The word for a label: a letter of the alphabet, or two quotes for an empty move where these are
allowed. -/
inductive LabelText (h : Header) : List Char → Label → Prop where
  /-- A letter. -/
  | letter {x : Char} : x ∈ h.alphabet → LabelText h [x] (.letter x)
  /-- The empty move. -/
  | epsilon : h.kind = .enfa → LabelText h ['"', '"'] .epsilon

/-- A line `t from to label`, for the edge between the states of these names. -/
def TransitionLine (h : Header) (names : List String) (line : List Char) (a : Arrow) : Prop :=
  ∃ source target label, wordsOf line = [['t'], source.toList, target.toList, label] ∧
    names[a.1]? = some source ∧ names[a.2.2]? = some target ∧ LabelText h label a.2.1

/-! ### The whole text -/

/-- A text describes an automaton: its lines are a header, the lines of the states with different
names, and the lines of the transitions, as many of them as the header says. In a deterministic
automaton each state has one transition line for each letter. The machine has the states in the
order of their lines, and the edges are added in the order of theirs. -/
inductive Describes : List Char → Description → Prop where
  /-- The lines of the text and what they say. -/
  | intro {text header : List Char} {stateLines transitionLines : List (List Char)} {h : Header}
      {names : List String} {edges : List Arrow} :
    contentLines text = header :: (stateLines ++ transitionLines) →
    HeaderLine header h →
    List.Forall₂ StateLine stateLines names → names.length = h.stateCount → names.Nodup →
    List.Forall₂ (TransitionLine h names) transitionLines edges →
    edges.length = h.transitionCount →
    (h.kind = .dfa → ∀ q < names.length, ∀ x ∈ h.alphabet,
      edges.countP (fun a => a.1 = q ∧ a.2.1 = .letter x) = 1) →
    Describes text
      ⟨h.kind, ⟨(Graph.ofNames names).addEdges edges, h.initial, h.finals, h.alphabet⟩⟩

end Description

end Acceptor
