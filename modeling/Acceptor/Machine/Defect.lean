import Acceptor.Kind
import Acceptor.Machine

/-!
# What is wrong with a machine

Each kind of automaton demands something of its machine. `Machine.defects` lists every violation in
a fixed order, and validation reports the first one.

## Main results

* `Machine.validate_eq_ok`: validation succeeds exactly if there is no defect.
* `Machine.mem_defects_of_validate`: a reported defect is one of the machine's.
-/

namespace Acceptor

/-- A way in which a machine fails the demands of a kind. -/
inductive Defect where
  /-- There is no initial state. -/
  | noInitial
  /-- A deterministic automaton has another number of initial states than one. -/
  | severalInitial (count : Nat)
  /-- An id is not below the number of states. -/
  | outOfRange (id size : Nat)
  /-- A state has an empty move where none is allowed. -/
  | epsilonEdge (state : String)
  /-- A state has an edge on a letter that the alphabet lacks. -/
  | foreignLetter (state : String) (c : Char)
  /-- A state of a deterministic automaton has no edge on some letters. -/
  | missingLetters (state : String) (cs : List Char)
  /-- A state of a deterministic automaton has several targets under one label. -/
  | ambiguous (state : String) (label : Label)
  /-- A wildcard edge leads to words that the edge on a letter beside it does not. -/
  | uncovered (state : String) (c : Char)
  deriving DecidableEq

namespace Defect

/-- The complaint about a defect. -/
def message : Defect → String
  | noInitial => "automaton has no initial state"
  | severalInitial n => s!"DFA needs exactly one initial state, got {n}"
  | outOfRange q n => s!"state index {q} is out of bounds of [0, {n})"
  | epsilonEdge s =>
    s!"state {s} has an epsilon transition, only epsilon automata may contain them"
  | foreignLetter s c => s!"state {s} has a transition on '{c}' which is not in the alphabet"
  | missingLetters s cs =>
    s!"state {s} is missing transitions for the symbols {Machine.braced (cs.map Char.toString)}"
  | ambiguous s l => s!"state {s} has more than one transition on '{l.text}'"
  | uncovered s c =>
    s!"wildcard transition of state {s} accepts words its '{c}' transition rejects"

end Defect

namespace Machine

/-- The defects of the initial list by itself. -/
def initialDefects (k : Kind) (m : Machine) : List Defect :=
  if m.initial = [] then [.noInitial]
  else if k = .dfa ∧ m.initial.length ≠ 1 then [.severalInitial m.initial.length]
  else []

/-- The ids of a list that are no states. -/
def rangeDefects (m : Machine) (qs : List Nat) : List Defect :=
  (qs.filter fun q => m.size ≤ q).map (.outOfRange · m.size)

/-- The defects of the edges of state `s` with one label. -/
def groupDefects (k : Kind) (m : Machine) (s : State) (l : Label) (qs : List Nat) : List Defect :=
  m.rangeDefects qs ++
    (match l with
      | .letter c => if c ∈ m.alphabet then [] else [.foreignLetter s.name c]
      | .any => []
      | .epsilon => if k = .enfa then [] else [.epsilonEdge s.name]) ++
    if k = .dfa ∧ 1 < qs.length then [.ambiguous s.name l] else []

/-- The letters of the alphabet on which a state has no edge. -/
def missingLetters (m : Machine) (s : State) : List Char :=
  m.alphabet.letters.filter fun c => !s.edges.has (.letter c)

/-- The defects of one state: those of its edges, then the letters it lacks. -/
def stateDefects (k : Kind) (m : Machine) (s : State) : List Defect :=
  s.edges.groups.flatMap (fun g => m.groupDefects k s g.1 g.2) ++
    if k = .dfa ∧ m.missingLetters s ≠ [] then [.missingLetters s.name (m.missingLetters s)] else []

/-- Everything that keeps a machine from being an automaton of kind `k`, wildcard coverage apart. -/
def defects (k : Kind) (m : Machine) : List Defect :=
  m.initialDefects k ++ m.rangeDefects (m.initial ++ m.finals) ++
    m.graph.states.toList.flatMap (m.stateDefects k)

/-- The first defect, if there is one. -/
def validate (k : Kind) (m : Machine) : Except Defect Unit :=
  match m.defects k with
  | [] => .ok ()
  | d :: _ => .error d

variable {k : Kind} {m : Machine} {d : Defect}

theorem validate_eq_ok : m.validate k = .ok () ↔ m.defects k = [] := by
  unfold validate
  split <;> simp_all

theorem mem_defects_of_validate (h : m.validate k = .error d) : d ∈ m.defects k := by
  unfold validate at h
  split at h <;> simp_all

end Machine

end Acceptor
