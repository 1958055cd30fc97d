import Acceptor.Graph.Names

/-!
# Building a graph

A graph is built by additions, of a state or of an edge, made one after the other. An edge can only
be added where there is a state already.

What some additions say is told apart from what they build: the names of their states, and for each
state and label the targets that are given, in the order of the additions and with repetitions.

## Main definitions

* `Graph.Addition`, `Graph.built?`: additions and the graph that they build.
* `Graph.Sourced`: every edge is added to a state that is there.
* `Graph.namesIn`, `Graph.labelsFrom`, `Graph.targetsFrom`: what additions say.
-/

namespace Acceptor

namespace Graph

/-- What is added to a graph. -/
inductive Addition where
  /-- A state of this name. -/
  | state (name : String)
  /-- An edge. -/
  | edge (source : Nat) (label : Label) (target : Nat)
  deriving DecidableEq

/-- The graph after an addition, unless an edge is to leave no state. -/
def add? (g : Graph) : Addition → Option Graph
  | .state name => some (g.addState name)
  | .edge p l q => g.addEdge? p l q

/-- The graph that is built by some additions. -/
def built? (as : List Addition) : Option Graph := as.foldlM add? ∅

/-! ### What additions say -/

namespace Addition

/-- The name of a state that is added. -/
def name? : Addition → Option String
  | state name => some name
  | edge .. => none

/-- The label and the target of an edge that is added to `p`. -/
def edgeFrom? (p : Nat) : Addition → Option (Label × Nat)
  | state _ => none
  | edge source label target => if source = p then some (label, target) else none

end Addition

/-- The names of the states that are added. -/
def namesIn (as : List Addition) : List String := as.filterMap Addition.name?

/-- The labels and targets of the edges that are added to `p`. -/
def edgesFrom (p : Nat) (as : List Addition) : List (Label × Nat) :=
  as.filterMap (Addition.edgeFrom? p)

/-- The labels of the edges that are added to `p`. -/
def labelsFrom (p : Nat) (as : List Addition) : List Label := (edgesFrom p as).map Prod.fst

/-- The targets that are given for the state `p` and the label `l`. -/
def targetsFrom (p : Nat) (l : Label) (as : List Addition) : List Nat :=
  ((edgesFrom p as).filter fun e => e.1 = l).map Prod.snd

/-- Every edge is added to a state that the additions before it have made. -/
def Sourced (as : List Addition) : Prop :=
  ∀ before p l q after, as = before ++ .edge p l q :: after → p < (namesIn before).length

end Graph

end Acceptor
