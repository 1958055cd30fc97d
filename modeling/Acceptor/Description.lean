import Acceptor.Description.Cursor
import Acceptor.Description.Error
import Acceptor.Machine.Defect
import Acceptor.Text.Cut
import Acceptor.Text.Numeral
import Acceptor.Text.WhiteSpace

/-!
# Descriptions of automata

A description is a text of lines, blank ones apart. The header gives the kind, the numbers of states
and of transitions, the lists of initial and of final states in parentheses, and the characters of
the alphabet. A line `s name` follows for every state and a line `t from to label` for every
transition, where `""` is the label of an empty move.

## Main results

* `Description.read`: reading a description, which stops at the first error.

## Implementation notes

Each reader takes the cursor and gives back what it read with the cursor after it. The lines are
read one by one, so a count larger than the text can hold fails at the end of the text.
-/

namespace Acceptor

/-- A kind and the machine described for it. -/
structure Description where
  /-- The declared kind. -/
  kind : Kind
  /-- The described machine. -/
  machine : Machine
  deriving DecidableEq

namespace Description

/-- What the header line of a description says. -/
structure Header where
  /-- The kind of automaton. -/
  kind : Kind
  /-- The number of state lines. -/
  stateCount : Nat
  /-- The number of transition lines. -/
  transitionCount : Nat
  /-- The initial states. -/
  initial : List Nat
  /-- The final states. -/
  finals : List Nat
  /-- The alphabet. -/
  alphabet : Alphabet
  deriving DecidableEq

/-! ### The header -/

/-- The next word of the header. -/
def readWord (f : Field) (c : Cursor) : Except Error (Word × Cursor) :=
  match c.nextWord with
  | (some w, c) => .ok (w, c)
  | (none, c) => .error (.located c.position.next (.missingField f))

/-- The kind at the start of the header. -/
def readKind (c : Cursor) : Except Error (Kind × Cursor) :=
  match c.nextWord with
  | (none, c) => .error (.located c.position.next .missingHeader)
  | (some w, c) =>
    match Kind.ofText w.text with
    | .ok k => .ok (k, c)
    | .error _ => .error (.located w.position (.unknownKind w.text))

/-- A number of lines. -/
def readCount (f : Field) (c : Cursor) : Except Error (Nat × Cursor) := do
  let (w, c) ← readWord f c
  match Text.numeral? w.letters with
  | some n => return (n, c)
  | none => throw (.located w.position (.invalidNumber w.text))

/-- The numbers of a list, given the text between its parentheses and where it begins. -/
def indices (p : Position) (inside : List Char) : Except Error (List Nat) :=
  if Text.trim inside = [] then .ok []
  else (Text.cut ',' inside).mapM fun piece =>
    match Text.numeral? (Text.trim piece) with
    | some n => .ok n
    | none => .error (.located p (.invalidNumber (.ofList (Text.trim piece))))

/-- The opening parenthesis of a list, with its position. -/
def readOpening (f : Field) (c : Cursor) : Except Error (Position × Cursor) :=
  let c := c.skipBlanks
  match c.peek with
  | some x =>
    if x = '(' then .ok (c.next.position, c.next)
    else if x = '\n' then .error (.located c.position.next (.missingField f))
    else .error (.located c.position.next (.malformedList .opening))
  | none => .error (.located c.position.next (.missingField f))

/-- A list of numbers in parentheses, with the position of the first parenthesis. -/
def readList (f : Field) (c : Cursor) : Except Error ((Position × List Nat) × Cursor) := do
  let (p, c) ← readOpening f c
  match c.nextUntil ')' with
  | (none, c) => throw (.located c.position.next (.malformedList .closing))
  | (some inside, c) =>
    let is ← indices p inside
    return ((p, is), c)

/-- Fails if an index is not below `count`. -/
def checkRange (count : Nat) (p : Position) (is : List Nat) : Except Error Unit :=
  match is.find? fun i => count ≤ i with
  | some i => .error (.located p (.outOfRange i count))
  | none => .ok ()

/-- The end of the header line. -/
def readLineEnd (c : Cursor) : Except Error Cursor :=
  match c.nextWord with
  | (some w, _) => .error (.located w.position (.trailingArguments w.text))
  | (none, c) => .ok c.next

/-- The header line. -/
def readHeader (c : Cursor) : Except Error (Header × Cursor) := do
  let (kind, c) ← readKind c.skipBlankLines
  let (stateCount, c) ← readCount .stateCount c
  let (transitionCount, c) ← readCount .transitionCount c
  let ((initialAt, initial), c) ← readList .initialStates c
  if initial = [] then throw (.located initialAt .noInitial)
  let ((finalsAt, finals), c) ← readList .finalStates c
  checkRange stateCount initialAt initial
  checkRange stateCount finalsAt finals
  let (w, c) ← readWord .alphabet c
  let c ← readLineEnd c
  return (⟨kind, stateCount, transitionCount, initial, finals, .ofList w.letters⟩, c)

/-! ### The lines -/

/-- The words of the next line that is not blank, or an error if there is none. -/
def readLine (missing : Cause) (c : Cursor) : Except Error (List Word × Cursor) :=
  let c := c.skipBlankLines
  if c.atEnd then .error (.located c.position.next missing) else .ok c.lineWords

/-- The words after the keyword of a line, which has to have `count` words in all. The complaints
are about the first word. -/
def arguments (keyword : Char) (count : Nat) (unexpected : Cause) :
    List Word → Except Error (List Word)
  | [] => .error ⟨.argumentCount count 0, none⟩
  | w :: ws =>
    if w.letters ≠ [keyword] then .error (.located w.position unexpected)
    else if ws.length + 1 ≠ count then
      .error (.located w.position (.argumentCount count (ws.length + 1)))
    else .ok ws

/-- The graph with the state of a state line. -/
def addState (g : Graph) (line : List Word) : Except Error Graph := do
  match ← arguments 's' 2 .expectedState line with
  | [w] =>
    if (g.find? w.text).isSome then throw (.located w.position (.duplicateState w.text))
    else return g.addState w.text
  | _ => return g

/-- The state of a name. -/
def resolve (g : Graph) (w : Word) : Except Error Nat :=
  match g.find? w.text with
  | some q => .ok q
  | none => .error (.located w.position (.undefinedState w.text))

/-- The label of a transition line. -/
def readLabel (h : Header) (w : Word) : Except Error Label :=
  if w.letters = ['"', '"'] then
    if h.kind = .enfa then .ok .epsilon else .error (.located w.position .epsilonNotAllowed)
  else
    match w.letters with
    | [x] =>
      if x ∈ h.alphabet then .ok (.letter x) else .error (.located w.position (.foreignLetter x))
    | _ => .error (.located w.position (.invalidLabel w.text))

/-- Fails if a state of a deterministic automaton has an edge with that label. -/
def checkNew (h : Header) (g : Graph) (q : Nat) (name label : Word) (l : Label) :
    Except Error Unit :=
  if h.kind = .dfa ∧ g.targets q l ≠ [] then
    .error (.located label.position
      (.duplicateTransition name.text (l.letter?.getD (Char.ofNat 0))))
  else .ok ()

/-- The graph with the edge of a transition line. -/
def addTransition (h : Header) (g : Graph) (line : List Word) : Except Error Graph := do
  match ← arguments 't' 4 .expectedTransition line with
  | [source, target, label] =>
    let p ← resolve g source
    let q ← resolve g target
    let l ← readLabel h label
    checkNew h g p source label l
    return g.addEdge p l q
  | _ => return g

/-- Reads `n` more lines into a graph. `missing` is the complaint that the text ends early, given
the number of lines left to read. -/
def readLines (add : Graph → List Word → Except Error Graph) (missing : Nat → Cause) :
    Nat → Graph → Cursor → Except Error (Graph × Cursor)
  | 0, g, c => .ok (g, c)
  | n + 1, g, c =>
    match readLine (missing (n + 1)) c with
    | .error e => .error e
    | .ok (line, c) =>
      match add g line with
      | .error e => .error e
      | .ok g => readLines add missing n g c

/-- The state lines. -/
def readStates (h : Header) (c : Cursor) : Except Error (Graph × Cursor) :=
  readLines addState (fun left => .missingStates h.stateCount (h.stateCount - left))
    h.stateCount ∅ c

/-- The transition lines. -/
def readTransitions (h : Header) (g : Graph) (c : Cursor) : Except Error (Graph × Cursor) :=
  readLines (addTransition h)
    (fun left => .missingTransitions h.transitionCount (h.transitionCount - left))
    h.transitionCount g c

/-! ### The whole description -/

/-- Fails unless only blank lines are left. -/
def readEnd (c : Cursor) : Except Error Unit :=
  let c := c.skipBlankLines
  if c.atEnd then .ok () else .error (.located c.position.next .trailingContent)

/-- The states that lack edges on letters of the alphabet. -/
def gaps (m : Machine) : List Gap :=
  (m.graph.states.toList.map fun s => ⟨s.name, m.missingLetters s⟩).filter (·.letters ≠ [])

/-- Fails if a deterministic automaton has gaps. -/
def checkSaturated (k : Kind) (m : Machine) : Except Error Unit :=
  if k = .dfa ∧ gaps m ≠ [] then .error ⟨.notSaturated (gaps m), none⟩ else .ok ()

/-- Reads a description. -/
def read (text : String) : Except Error Description := do
  let (h, c) ← readHeader (.ofText text)
  let (g, c) ← readStates h c
  let (g, c) ← readTransitions h g c
  readEnd c
  let m : Machine := ⟨g, h.initial, h.finals, h.alphabet⟩
  checkSaturated h.kind m
  return ⟨h.kind, m⟩

end Description

end Acceptor
