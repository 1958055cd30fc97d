import Acceptor.IdSet.Registry
import Mathlib.Data.Finset.Sort

/-!
# Registries of finite sets

What the steps on a registry do to finite sets of numbers, which have no length and no capacity, and
what they answer about them.
-/

namespace Acceptor

namespace IdSet

/-- The step with every announced capacity dropped. -/
def Step.unannounced : Step → Step
  | .empty _ => .empty 0
  | .single q _ => .single q 0
  | step => step

/-- Finite sets by number. -/
abbrev FiniteSets := Array (Finset ℕ)

namespace FiniteSets

/-- The sets and the answer after a step, if the sets of the step exist. -/
def perform? (r : FiniteSets) : Step → Option (FiniteSets × Answer)
  | .empty _ => some (r.push ∅, .number r.size)
  | .single q _ => some (r.push {q}, .number r.size)
  | .collect qs => some (r.push qs.toFinset, .number r.size)
  | .copy i => do return (r.push (← r[i]?), .number r.size)
  | .insert i q => do
    let s ← r[i]?
    return (r.setIfInBounds i (s ∪ {q}), .added (q ∉ s) (s ∪ {q}).sort)
  | .unite i j => do
    let s := (← r[i]?) ∪ (← r[j]?)
    return (r.setIfInBounds i s, .members s.sort)
  | .contains i q => do return (r, .truth (q ∈ (← r[i]?)))
  | .isEmpty i => do return (r, .truth ((← r[i]?) = ∅))
  | .size i => do return (r, .number (← r[i]?).card)
  | .members i => do return (r, .members (← r[i]?).sort)
  | .text i => do
    return (r, .text ("\x7b" ++ ", ".intercalate ((← r[i]?).sort.map toString) ++ "\x7d"))
  | .meets i j => do return (r, .truth ((← r[i]?) ∩ (← r[j]?)).Nonempty)
  | .isSubset i j => do return (r, .truth ((← r[i]?) ⊆ (← r[j]?)))
  | .equal i j => do return (r, .truth ((← r[i]?) = (← r[j]?)))

end FiniteSets

end IdSet

end Acceptor
