import Acceptor.Alphabet
import Acceptor.Graph.Image

/-!
# Machines

A machine is a labelled graph with initial and final states and an alphabet. Nothing is promised
about it: ids may be no states, letters may be outside the alphabet. What the kinds of automata
demand of a machine is in `Acceptor.Machine.Defect`.

## Implementation notes

The initial and the final ids are lists, since their order and their repetitions show in listings
and drawings. Reading uses the sets of them, which fail if an id is too large to be held. Where final
ids are only looked up and no set of them is made, the total set stands for the list.
-/

namespace Acceptor

/-- A labelled graph with initial and final states and an alphabet. -/
structure Machine where
  /-- The states and edges. -/
  graph : Graph
  /-- The ids of the initial states. -/
  initial : List Nat
  /-- The ids of the final states. -/
  finals : List Nat
  /-- The characters that edges may name. -/
  alphabet : Alphabet
  deriving DecidableEq

namespace Machine

instance : EmptyCollection Machine := ⟨⟨∅, [], [], ∅⟩⟩

instance : Inhabited Machine := ⟨∅⟩

/-- The number of states. -/
def size (m : Machine) : Nat := m.graph.size

/-- The set of the initial ids. -/
def initialSet (m : Machine) : IdSet := .ofList m.initial

/-- The set of the final ids. -/
def finalSet (m : Machine) : IdSet := .ofList m.finals

/-- The set of the initial ids, if it can be held. -/
def initialSet? (m : Machine) : Option IdSet := m.initialSet.held? m.size

/-- The set of the final ids, if it can be held. -/
def finalSet? (m : Machine) : Option IdSet := m.finalSet.held? m.size

@[simp] theorem mem_initialSet {m : Machine} {q : Nat} : q ∈ m.initialSet ↔ q ∈ m.initial :=
  IdSet.mem_ofList

@[simp] theorem mem_finalSet {m : Machine} {q : Nat} : q ∈ m.finalSet ↔ q ∈ m.finals :=
  IdSet.mem_ofList

theorem initialSet?_eq {m : Machine} (h : ∀ q ∈ m.initial, q < m.size ∨ q < IdSet.idBound) :
    m.initialSet? = some m.initialSet :=
  IdSet.held?_eq fun q hq => h q (mem_initialSet.mp hq)

theorem finalSet?_eq {m : Machine} (h : ∀ q ∈ m.finals, q < m.size ∨ q < IdSet.idBound) :
    m.finalSet? = some m.finalSet :=
  IdSet.held?_eq fun q hq => h q (mem_finalSet.mp hq)

theorem finalSet?_eq_none {m : Machine} :
    m.finalSet? = none ↔ ∃ q ∈ m.finals, m.size ≤ q ∧ IdSet.idBound ≤ q := by
  simp [finalSet?, IdSet.held?_eq_none]

/-- Whether some edge is a wildcard. -/
def hasWildcard (m : Machine) : Bool := m.graph.has .any

/-- Whether some edge is an empty move. -/
def hasEpsilon (m : Machine) : Bool := m.graph.has .epsilon

/-- The labels that tell the characters of a word apart: one letter for each character of the
alphabet, and the wildcard, for all other characters, if some edge carries it. -/
def readLabels (m : Machine) : List Label :=
  m.alphabet.letters.map .letter ++ if m.hasWildcard then [.any] else []

theorem readLabels_nodup (m : Machine) : m.readLabels.Nodup := by
  have hletters : (m.alphabet.letters.map Label.letter).Nodup :=
    List.pairwise_map.mpr (m.alphabet.sorted.imp fun h => by simpa using Char.ne_of_lt h)
  rw [readLabels, List.nodup_append]
  refine ⟨hletters, by split <;> simp, fun a ha b hb => ?_⟩
  obtain ⟨c, -, rfl⟩ := List.mem_map.mp ha
  split at hb <;> simp_all

theorem mem_readLabels {m : Machine} {l : Label} :
    l ∈ m.readLabels ↔ (∃ c ∈ m.alphabet, l = .letter c) ∨ l = .any ∧ m.hasWildcard := by
  rw [readLabels, List.mem_append, List.mem_map]
  refine or_congr (exists_congr fun c => and_congr_right fun _ => eq_comm) ?_
  split <;> simp_all

@[simp] theorem letter_mem_readLabels {m : Machine} {c : Char} :
    .letter c ∈ m.readLabels ↔ c ∈ m.alphabet := by
  simp [mem_readLabels]

@[simp] theorem any_mem_readLabels {m : Machine} : .any ∈ m.readLabels ↔ m.hasWildcard := by
  simp [mem_readLabels]

@[simp] theorem epsilon_not_mem_readLabels {m : Machine} : .epsilon ∉ m.readLabels := by
  simp [mem_readLabels]

theorem hasWildcard_iff {m : Machine} : m.hasWildcard ↔ ∃ q r, r ∈ m.graph.targets q .any :=
  Graph.has_iff

theorem readLabels_congr {m n : Machine} (halphabet : n.alphabet = m.alphabet)
    (hany : n.hasWildcard ↔ m.hasWildcard) : n.readLabels = m.readLabels := by
  rw [readLabels, readLabels, halphabet, Bool.eq_iff_iff.mpr hany]

/-- Where a label of `readLabels` leads from a set of states: a letter takes the wildcard edges
along. -/
def move (m : Machine) (s : IdSet) : Label → IdSet
  | .letter c => m.graph.reading s c
  | l => m.graph.image s l

/-- Whether two machines are the same, where the labels of a state may come in any order. -/
def agrees (m n : Machine) : Bool :=
  m.graph.agrees n.graph && m.initial == n.initial && m.finals == n.finals &&
    m.alphabet == n.alphabet

/-! ### The listing of a machine -/

/-- The name of a state. An id that is no state has a stand-in. -/
def nameOf (m : Machine) (q : Nat) : String :=
  match m.graph.states[q]? with
  | some s => s.name
  | none => s!"<missing {q}>"

/-- Texts separated by commas, in braces with blanks inside. -/
def braced (xs : List String) : String := "\x7b " ++ ", ".intercalate xs ++ " \x7d"

/-- One id by its name, any other number of ids in braces. -/
def namesOf (m : Machine) : List Nat → String
  | [q] => m.nameOf q
  | qs => braced (qs.map m.nameOf)

/-- The lines for one state: its name, then its edges, one line for each label. -/
def stateLines (m : Machine) (s : State) : String :=
  s!"State ({s.name}):\n" ++
    .join (s.edges.groups.map fun g => s!"\t{g.1.text} -> {m.namesOf g.2}\n")

/-- The line for the initial states. -/
def initialLine (m : Machine) : String :=
  (if m.initial.length = 1 then "Initial state: " else "Initial states: ") ++
    m.namesOf m.initial ++ ",\n"

/-- The listing of a machine. -/
def text (m : Machine) : String :=
  s!"Alphabet: {braced (m.alphabet.letters.map Char.toString)},\n" ++
    s!"States: {braced (m.graph.states.toList.map State.name)},\n" ++
    "Transitions:\n" ++ .join (m.graph.states.toList.map m.stateLines) ++
    m.initialLine ++
    s!"Final states: {braced (m.finals.map m.nameOf)}\n"

end Machine

end Acceptor
