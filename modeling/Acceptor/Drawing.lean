import Acceptor.Machine

/-!
# Drawings

The drawing of a machine is a directed graph in the dot language. Each initial entry has a point of
its own with an arrow to its state, final states have a double border, and there is one arrow from
a state to another however many labels lead there.
-/

namespace Acceptor

namespace Drawing

/-- A text inside quotes: backslashes and quotes are escaped. -/
def escape (s : String) : String :=
  .join (s.toList.map fun c => if c = '\\' then "\\\\" else if c = '"' then "\\\"" else c.toString)

/-- The name of the point before the `i`-th initial entry. -/
def start (i : Nat) : String := s!"__start{i}__"

/-- The name of a state's node. -/
def node (q : Nat) : String := s!"q{q}"

/-- The line for a state. -/
def nodeLine (m : Machine) (q : Nat) (s : State) : String :=
  let shape := if q ∈ m.finals then "doublecircle" else "circle"
  s!"\t{node q} [label = \"{escape s.name}\", shape = {shape}];\n"

/-- The texts of the labels that lead to `q`, each once. -/
def labelsTo (s : State) (q : Nat) : List String :=
  ((s.edges.toList.filter fun e => e.2 = q).map fun e => e.1.drawnText).eraseDups

/-- The text on the arrow to `q`. -/
def arrowText (s : State) (q : Nat) : String := ",".intercalate (labelsTo s q)

/-- The states that a state has an arrow to, by its first edge to them. -/
def targets (s : State) : List Nat := (s.edges.toList.map Prod.snd).eraseDups

/-- The lines for the arrows from a state. -/
def arrowLines (q : Nat) (s : State) : String :=
  .join ((targets s).map fun r =>
    s!"\t{node q} -> {node r} [label = \" {escape (arrowText s r)}\"]\n")

end Drawing

namespace Machine

open Drawing in
/-- The drawing of a machine. -/
def drawing (m : Machine) : String :=
  let states := m.graph.states.toList.zipIdx
  "digraph \x7b\n\trankdir=LR\n" ++
    .join (m.initial.zipIdx.map fun p => s!"\t{start p.2} [shape = point];\n") ++
    .join (states.map fun p => nodeLine m p.2 p.1) ++
    .join (m.initial.zipIdx.map fun p => s!"\t{start p.2} -> {node p.1}\n") ++
    .join (states.map fun p => arrowLines p.2 p.1) ++
    "\x7d\n"

end Machine

end Acceptor
