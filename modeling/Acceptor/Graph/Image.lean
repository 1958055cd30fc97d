import Acceptor.Graph
import Acceptor.IdSet.Held

/-!
# Moving sets of states

The image of a set of states under a label, and under a character that is read, are the sets of
the targets of its members. A member that is no state makes the move fail. A target that is no state
does not, unless it is too large to be held.

## Main results

* `Graph.mem_image`, `Graph.mem_reading`: the members of an image.
* `Graph.image?_eq`, `Graph.reading?_eq`: a set of states moves if it moves to states.
-/

namespace Acceptor

namespace Graph

variable {g : Graph} {s : IdSet} {l : Label} {c : Char} {q : Nat}

/-- Whether every member is a state. -/
def covers (g : Graph) (s : IdSet) : Bool := s.toList.all (· < g.size)

theorem covers_iff : g.covers s ↔ ∀ q ∈ s, q < g.size := by simp [covers]

/-- The targets of the members of `s` under `l`. -/
def image (g : Graph) (s : IdSet) (l : Label) : IdSet :=
  .ofList (s.toList.flatMap (g.targets · l))

/-- Where reading `c` may lead from the members of `s`, along letters and wildcards. -/
def reading (g : Graph) (s : IdSet) (c : Char) : IdSet :=
  .ofList (s.toList.flatMap (g.step · c))

/-- The image under `l`, if every member is a state and the image can be held. -/
def image? (g : Graph) (s : IdSet) (l : Label) : Option IdSet :=
  if g.covers s then (g.image s l).held? g.size else none

/-- Where reading `c` may lead, if every member is a state and the targets can be held. -/
def reading? (g : Graph) (s : IdSet) (c : Char) : Option IdSet :=
  if g.covers s then (g.reading s c).held? g.size else none

@[simp] theorem mem_image : q ∈ g.image s l ↔ ∃ p ∈ s, q ∈ g.targets p l := by simp [image]

@[simp] theorem mem_reading : q ∈ g.reading s c ↔ ∃ p ∈ s, q ∈ g.step p c := by simp [reading]

theorem lt_size_of_mem_image (hg : g.confined) (h : q ∈ g.image s l) : q < g.size := by
  obtain ⟨p, -, hq⟩ := mem_image.mp h
  exact confined_iff.mp hg p l q hq

theorem lt_size_of_mem_step {p : Nat} (hg : g.confined) (h : q ∈ g.step p c) : q < g.size := by
  obtain ⟨l, -, hq⟩ := mem_step.mp h
  exact confined_iff.mp hg p l q hq

theorem lt_size_of_mem_reading (hg : g.confined) (h : q ∈ g.reading s c) : q < g.size := by
  obtain ⟨p, -, hq⟩ := mem_reading.mp h
  exact lt_size_of_mem_step hg hq

theorem image?_eq (hs : ∀ q ∈ s, q < g.size) (ht : ∀ q ∈ g.image s l, q < g.size) :
    g.image? s l = some (g.image s l) := by
  rw [image?, if_pos (covers_iff.mpr hs), IdSet.held?_eq fun q hq => .inl (ht q hq)]

theorem reading?_eq (hs : ∀ q ∈ s, q < g.size) (ht : ∀ q ∈ g.reading s c, q < g.size) :
    g.reading? s c = some (g.reading s c) := by
  rw [reading?, if_pos (covers_iff.mpr hs), IdSet.held?_eq fun q hq => .inl (ht q hq)]

end Graph

end Acceptor
