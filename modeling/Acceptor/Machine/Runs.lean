import Acceptor.Machine

/-!
# Runs

A run of a machine goes from state to state along edges. It reads a character along an edge whose
label allows it and nothing along an empty move. A word is in the language of a machine if a run
from an initial to a final state reads it.

## Main results

* `Machine.Run.append`: runs can be joined.
-/

namespace Acceptor

namespace Machine

variable {m : Machine} {p q r : Nat} {u v : List Char}

/-- A run from one state to another that reads a word. -/
inductive Run (m : Machine) : Nat → List Char → Nat → Prop where
  /-- The run without an edge. -/
  | stay (q : Nat) : Run m q [] q
  /-- A run whose first edge reads a character. -/
  | read {p q r : Nat} {l : Label} {c : Char} {w : List Char} :
    q ∈ m.graph.targets p l → l.reads c → Run m q w r → Run m p (c :: w) r
  /-- A run whose first edge is an empty move. -/
  | skip {p q r : Nat} {w : List Char} :
    q ∈ m.graph.targets p .epsilon → Run m q w r → Run m p w r

theorem Run.append (h : m.Run p u q) (h' : m.Run q v r) : m.Run p (u ++ v) r := by
  induction h with
  | stay => exact h'
  | read hq hc _ ih => exact .read hq hc (ih h')
  | skip hq _ ih => exact .skip hq (ih h')

/-- A word that some run from an initial to a final state reads. -/
def Reads (m : Machine) (w : List Char) : Prop :=
  ∃ p ∈ m.initial, ∃ q ∈ m.finals, m.Run p w q

end Machine

end Acceptor
