import Acceptor.Machine
import Acceptor.Pattern

/-!
# The machine of a pattern

The machine of a pattern has its states in a row, from the only initial one to the only final one.
An item that reads one character leads on, an optional one can also be skipped by an empty move, and
one that is read any number of times loops on the spot. Two loops that follow each other are kept
apart by an empty move, since on one state they would mix.
-/

namespace Acceptor

/-- An edge of a machine under construction: source, label, target. -/
abbrev Arrow := Nat × Label × Nat

namespace Graph

/-- The graph with edges added one after the other, from states only. -/
def addEdges (g : Graph) (as : List Arrow) : Graph :=
  as.foldl (fun g a => g.addEdge a.1 a.2.1 a.2.2) g

/-- The graph with edges added one after the other, unless one leaves from no state. -/
def addEdges? (g : Graph) (as : List Arrow) : Option Graph :=
  as.foldlM (fun g a => g.addEdge? a.1 a.2.1 a.2.2) g

/-- The graph without edges on states of these names. -/
def ofNames (names : List String) : Graph := names.foldl addState ∅

end Graph

namespace Item

/-- The number of states an item advances, given the items after it. -/
def advance (x : Item) (rest : List Item) : Nat :=
  match x.count with
  | .one | .optional => 1
  | .many => if rest.head?.any (·.count == .many) then 1 else 0

/-- The edges of an item whose first state is `i`, given the items after it. -/
def arrows (x : Item) (rest : List Item) (i : Nat) : List Arrow :=
  match x.count with
  | .one => [(i, x.label, i + 1)]
  | .optional => [(i, .epsilon, i + 1), (i, x.label, i + 1)]
  | .many => (i, x.label, i) :: if x.advance rest = 1 then [(i, .epsilon, i + 1)] else []

end Item

namespace Pattern

/-- The state after items whose first state is `i`. -/
def lastState (i : Nat) : List Item → Nat
  | [] => i
  | x :: xs => lastState (i + x.advance xs) xs

/-- The edges of items whose first state is `i`. -/
def arrows (i : Nat) : List Item → List Arrow
  | [] => []
  | x :: xs => x.arrows xs i ++ arrows (i + x.advance xs) xs

/-- The machine of a pattern. -/
def machine (p : Pattern) : Machine where
  graph := (Graph.ofNames ((List.range (lastState 0 p.items + 1)).map toString)).addEdges
    (arrows 0 p.items)
  initial := [0]
  finals := [lastState 0 p.items]
  alphabet := p.alphabet

end Pattern

end Acceptor
