import Acceptor.IdSet.Bitmap

/-!
# Registries of sets

A registry holds sets under numbers that count up from zero, each as a bitmap. Steps make sets,
change one set, or ask about sets. Making a set may announce how many ids it will hold, which is the
length that its bitmap starts with.
-/

namespace Acceptor

namespace IdSet

/-- The sets of a registry by number. -/
abbrev Registry := Array Bitmap

/-- One step on a registry. Sets are given by their numbers. -/
inductive Step where
  /-- Makes the empty set, announcing a capacity. -/
  | empty (capacity : Nat)
  /-- Makes a set with one member, announcing a capacity. -/
  | single (id capacity : Nat)
  /-- Makes the set of the ids of a list. -/
  | collect (ids : List Nat)
  /-- Makes a copy. -/
  | copy (set : Nat)
  /-- Adds a member. -/
  | insert (set id : Nat)
  /-- Adds all members of another set. -/
  | unite (set other : Nat)
  /-- Asks for a member. -/
  | contains (set id : Nat)
  /-- Asks whether there is no member. -/
  | isEmpty (set : Nat)
  /-- Asks for the number of members. -/
  | size (set : Nat)
  /-- Asks for the members. -/
  | members (set : Nat)
  /-- Asks for the text of a set. -/
  | text (set : Nat)
  /-- Asks for a common member. -/
  | meets (set other : Nat)
  /-- Asks whether all members are members of another set. -/
  | isSubset (set other : Nat)
  /-- Asks whether two sets are equal. -/
  | equal (set other : Nat)

/-- The ids that a step puts into sets. -/
def Step.ids : Step → List Nat
  | .single q _ => [q]
  | .collect qs => qs
  | .insert _ q => [q]
  | _ => []

/-- What a step answers. -/
inductive Answer where
  /-- A count, or the number of the set made. -/
  | number (n : Nat)
  /-- Whether something holds. -/
  | truth (b : Bool)
  /-- Members in increasing order. -/
  | members (ids : List Nat)
  /-- Whether a member is new, and the members after it was added. -/
  | added (new : Bool) (ids : List Nat)
  /-- A text. -/
  | text (s : String)
  deriving DecidableEq

/-- The answers to steps made one after the other, if none of them fails. -/
def answers? {ρ : Type} (step? : ρ → Step → Option (ρ × Answer)) (r : ρ) :
    List Step → Option (List Answer)
  | [] => some []
  | step :: steps => do
    let (r', a) ← step? r step
    return a :: (← answers? step? r' steps)

namespace Registry

/-- The registry with one more set, which takes the next number. -/
def make (r : Registry) (b : Bitmap) : Registry × Answer := (r.push b, .number r.size)

/-- The registry and the answer after a step, if its sets exist and its ids can be added. -/
def perform? (r : Registry) : Step → Option (Registry × Answer)
  | .empty n => some (make r (.empty n))
  | .single q n => do return make r (← (Bitmap.empty n).insert? q).2
  | .collect qs => do return make r (← Bitmap.collect? qs)
  | .copy i => do return make r (← r[i]?)
  | .insert i q => do
    let (new, b) ← (← r[i]?).insert? q
    return (r.setIfInBounds i b, .added new b.ones)
  | .unite i j => do
    let b := (← r[i]?).union (← r[j]?)
    return (r.setIfInBounds i b, .members b.ones)
  | .contains i q => do return (r, .truth ((← r[i]?).contains q))
  | .isEmpty i => do return (r, .truth (← r[i]?).isEmpty)
  | .size i => do return (r, .number (← r[i]?).size)
  | .members i => do return (r, .members (← r[i]?).ones)
  | .text i => do return (r, .text (← r[i]?).text)
  | .meets i j => do return (r, .truth ((← r[i]?).meets (← r[j]?)))
  | .isSubset i j => do return (r, .truth ((← r[i]?).isSubset (← r[j]?)))
  | .equal i j => do return (r, .truth ((← r[i]?).agrees (← r[j]?)))

end Registry

end IdSet

end Acceptor
