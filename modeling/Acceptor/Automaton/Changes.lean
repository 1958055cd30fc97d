import Acceptor.Automaton

/-!
# Changing an automaton

An automaton is compiled from a pattern or made from a machine, and then changed any number of
times: it is converted to a kind, or its accessible part is taken if it is deterministic.

## Implementation notes

The kind after a change is known from the change, so whether a sequence of changes can be asked for
is decided before any of them is made.
-/

namespace Acceptor

namespace Automaton

/-- An automaton compiled from a pattern in text. -/
def Compiled (a : Automaton) : Prop := ∃ s p k, Pattern.parse s = .ok p ∧ ofPattern k p = .ok a

/-- An automaton of kind `k` made from a machine. -/
def Made (k : Kind) (a : Automaton) : Prop := ∃ m, ofMachine k m = .ok a

/-- A change to an automaton. -/
inductive Change where
  /-- Conversion to a kind. -/
  | convert (k : Kind)
  /-- Restriction to the accessible part. -/
  | accessible
  deriving DecidableEq

namespace Change

/-- The automaton after a change. -/
def apply (a : Automaton) : Change → Except Fault Automaton
  | convert k => a.convert k
  | accessible => a.accessible

/-- The kind after a change, given the kind before. -/
def kindAfter (k : Kind) : Change → Kind
  | convert k' => k'
  | accessible => k

/-- A change that an automaton of kind `k` allows. -/
def Applies (k : Kind) : Change → Prop
  | convert _ => True
  | accessible => k = .dfa

/-- A sequence of changes each of which applies when it is due, from an automaton of kind `k`. -/
def AllApply : Kind → List Change → Prop
  | _, [] => True
  | k, c :: cs => c.Applies k ∧ AllApply (c.kindAfter k) cs

end Change

/-- The automaton after changes made one after the other. -/
def changed (a : Automaton) (cs : List Change) : Except Fault Automaton := cs.foldlM Change.apply a

end Automaton

end Acceptor
