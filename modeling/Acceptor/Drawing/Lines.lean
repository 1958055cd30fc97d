import Acceptor.Drawing
import Acceptor.Text.Cut

/-!
# The lines of a drawing

A drawing is a sequence of lines of seven forms. A line is data here, with the ids and names that it
is made from; its text is what stands in the drawing. A name or a label may hold line breaks, so the
text of one line can fall into several pieces between line breaks.

## Main results

* `Machine.drawing_eq`: a drawing is the text of its lines.
-/

namespace Acceptor

namespace Drawing

/-- A line of a drawing. -/
inductive Line where
  /-- The first line. -/
  | opening
  /-- The line that lets the graph run from left to right. -/
  | direction
  /-- The point before the `i`-th initial entry. -/
  | point (i : Nat)
  /-- A state, by its id, its name and whether it is final. -/
  | node (q : Nat) (name : String) (final : Bool)
  /-- The arrow from the point before the `i`-th initial entry to its state. -/
  | entry (i q : Nat)
  /-- The arrow from a state to an id, and what is written on it. -/
  | arrow (q r : Nat) (label : String)
  /-- The last line. -/
  | closing
  deriving DecidableEq

namespace Line

/-- The text of a line, without the line break after it. -/
def text : Line → String
  | opening => "digraph \x7b"
  | direction => "\trankdir=LR"
  | point i => "\t" ++ Drawing.start i ++ " [shape = point];"
  | node q name final =>
    "\t" ++ Drawing.node q ++ " [label = \"" ++ escape name ++ "\", shape = " ++
      (if final then "doublecircle" else "circle") ++ "];"
  | entry i q => "\t" ++ Drawing.start i ++ " -> " ++ Drawing.node q
  | arrow q r label =>
    "\t" ++ Drawing.node q ++ " -> " ++ Drawing.node r ++ " [label = \" " ++ escape label ++ "\"]"
  | closing => "\x7d"

/-- The ends of an arrow from a state. -/
def ends? : Line → Option (Nat × Nat)
  | arrow q r _ => some (q, r)
  | _ => none

end Line

/-- The text of a sequence of lines. -/
def textOf (ls : List Line) : String := .join (ls.map fun l => l.text ++ "\n")

theorem textOf_cons (l : Line) (ls : List Line) :
    textOf (l :: ls) = l.text ++ "\n" ++ textOf ls := by
  rw [textOf, List.map_cons, String.join_cons]
  rfl

theorem textOf_append (ls ks : List Line) : textOf (ls ++ ks) = textOf ls ++ textOf ks := by
  simp only [textOf, List.map_append, String.join_append]

theorem textOf_map {α : Type} (xs : List α) (f : α → Line) :
    textOf (xs.map f) = .join (xs.map fun x => (f x).text ++ "\n") := by
  rw [textOf, List.map_map]
  rfl

theorem textOf_flatMap {α : Type} (xs : List α) (f : α → List Line) :
    textOf (xs.flatMap f) = .join (xs.map fun x => textOf (f x)) := by
  induction xs with
  | nil => rfl
  | cons x xs ih => rw [List.flatMap_cons, textOf_append, ih, List.map_cons, String.join_cons]

/-- What a line for an arrow from `q` to `r` begins with. The blank after the quote tells it from
the rest of a line whose quoted text holds a line break. -/
def arrowStart (q r : Nat) : String :=
  "\t" ++ node q ++ " -> " ++ node r ++ " [label = \" "

/-- The number of lines of a text that begin as an arrow from `q` to `r` does. -/
def arrowCount (text : String) (q r : Nat) : Nat :=
  (Text.cut '\n' text.toList).countP ((arrowStart q r).toList.isPrefixOf ·)

end Drawing

namespace Machine

open Drawing

/-- The lines of the drawing of a machine. -/
def drawnLines (m : Machine) : List Line :=
  let states := m.graph.states.toList.zipIdx
  .opening :: .direction :: (m.initial.zipIdx.map fun p => .point p.2) ++
    (states.map fun p => .node p.2 p.1.name (p.2 ∈ m.finals)) ++
    (m.initial.zipIdx.map fun p => .entry p.2 p.1) ++
    (states.flatMap fun p => (targets p.1).map fun r => .arrow p.2 r (arrowText p.1 r)) ++ [.closing]

/-- The ends of the arrows in the drawing of a machine. -/
def drawnArrows (m : Machine) : List (Nat × Nat) := m.drawnLines.filterMap Line.ends?

theorem nodeLine_eq (m : Machine) (q : Nat) (s : State) :
    nodeLine m q s = (Line.node q s.name (q ∈ m.finals)).text ++ "\n" := by
  simp only [nodeLine, Line.text, String.append_assoc, decide_eq_true_eq]
  rfl

theorem arrowLines_eq (q : Nat) (s : State) :
    arrowLines q s = textOf ((targets s).map fun r => .arrow q r (arrowText s r)) := by
  simp only [arrowLines, textOf_map, Line.text, String.append_assoc]
  rfl

/-- A drawing is the text of its lines. -/
theorem drawing_eq (m : Machine) : m.drawing = textOf m.drawnLines := by
  have hfront : "digraph \x7b\n\trankdir=LR\n" = textOf [.opening, .direction] := rfl
  have hpoint (i : Nat) : s!"\t{start i} [shape = point];\n" = (Line.point i).text ++ "\n" := by
    simp only [Line.text, String.append_assoc]
    rfl
  have hentry (i q : Nat) :
      s!"\t{start i} -> {node q}\n" = (Line.entry i q).text ++ "\n" := by
    simp only [Line.text, String.append_assoc]
    rfl
  have hback : "\x7d\n" = textOf [.closing] := rfl
  unfold drawing drawnLines
  simp only [hfront, hpoint, nodeLine_eq, hentry, arrowLines_eq, hback, ← textOf_map,
    ← textOf_flatMap, ← textOf_append]
  rfl

/-! ### Machines that look alike -/

/-- Two machines look alike if they have the same states by name, the same initial entries, the same
final ones among their states and, from every state to every id, edges that are drawn alike. -/
structure LooksLike (m n : Machine) : Prop where
  /-- They have equally many states. -/
  size : m.size = n.size
  /-- The states have the same names. -/
  names : m.graph.states.toList.map State.name = n.graph.states.toList.map State.name
  /-- The initial entries are the same. -/
  initial : m.initial = n.initial
  /-- The same states are final. -/
  finals : ∀ q < m.size, q ∈ m.finals ↔ q ∈ n.finals
  /-- The same texts stand for the edges from an id to another. -/
  edges : ∀ q r text, (∃ l, r ∈ m.graph.targets q l ∧ l.drawnText = text) ↔
    ∃ l, r ∈ n.graph.targets q l ∧ l.drawnText = text

end Machine

end Acceptor
