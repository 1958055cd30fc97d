import Acceptor.Edges

/-!
# Labelled graphs

A graph is a sequence of named states, each with the edges that leave it. A state's id is its
place in the sequence. Edges may lead to ids that are no state: whether an automaton built on the
graph allows that is decided elsewhere.

## Main results

* `Graph.targets_addState`, `Graph.targets_addEdge`: what building a graph does to its targets.
* `Graph.mem_step`: reading a character follows the letter and the wildcard.

## Implementation notes

Looking up the edges of an id that is no state is a failure where it is observable (`targets?`,
`step?`, `successors?`), and gives no targets in `targets` and `step`.
-/

namespace Acceptor

/-- A named state and its edges. -/
structure State where
  /-- The name, which need not be unique. -/
  name : String
  /-- The edges that leave the state. -/
  edges : Edges
  deriving DecidableEq, Inhabited

namespace State

/-- Whether two states have the same name and the same targets under every label. -/
def agrees (s t : State) : Bool := s.name == t.name && s.edges.agrees t.edges

end State

/-- A sequence of states. -/
structure Graph where
  /-- The states by id. -/
  states : Array State
  deriving DecidableEq

namespace Graph

variable {g : Graph} {p q r : Nat} {l k : Label}

instance : EmptyCollection Graph := ⟨⟨#[]⟩⟩

instance : Inhabited Graph := ⟨∅⟩

/-- The number of states. -/
def size (g : Graph) : Nat := g.states.size

/-- Whether two graphs have the same states, where the labels of a state may come in any order. -/
def agrees (g h : Graph) : Bool :=
  g.size == h.size && (g.states.toList.zip h.states.toList).all fun p => p.1.agrees p.2

/-- The id of the first state of that name. -/
def find? (g : Graph) (name : String) : Option Nat := g.states.findIdx? (·.name == name)

/-! ### Building -/

/-- The graph with a state of that name added, without edges. Its id is the former size. -/
def addState (g : Graph) (name : String) : Graph := ⟨g.states.push ⟨name, ∅⟩⟩

/-- The graph with an edge from `p` to `q` added. Nothing happens if `p` is no state. -/
def addEdge (g : Graph) (p : Nat) (l : Label) (q : Nat) : Graph :=
  ⟨g.states.modify p fun s => { s with edges := s.edges.insert l q }⟩

/-- The graph with an edge from `p` to `q` added, unless `p` is no state. -/
def addEdge? (g : Graph) (p : Nat) (l : Label) (q : Nat) : Option Graph :=
  if p < g.size then some (g.addEdge p l q) else none

@[simp] theorem size_addState (name : String) : (g.addState name).size = g.size + 1 := by
  simp [size, addState]

@[simp] theorem size_addEdge : (g.addEdge p l q).size = g.size := by simp [size, addEdge]

/-! ### Following edges -/

/-- The edges that leave `q`. -/
def edges? (g : Graph) (q : Nat) : Option Edges := (g.states[q]?).map State.edges

/-- The targets of `q` under a label, in order of addition, if `q` is a state. -/
def targets? (g : Graph) (q : Nat) (l : Label) : Option (List Nat) := (g.edges? q).map (·.targets l)

/-- The targets of `q` under a label, in order of addition. -/
def targets (g : Graph) (q : Nat) (l : Label) : List Nat := (g.targets? q l).getD []

/-- Where reading `c` may lead from `q`, if `q` is a state: along its letter, then along the
wildcard. A target of both is listed twice. -/
def step? (g : Graph) (q : Nat) (c : Char) : Option (List Nat) :=
  (g.edges? q).map fun e => e.targets (.letter c) ++ e.targets .any

/-- Where reading `c` may lead from `q`. -/
def step (g : Graph) (q : Nat) (c : Char) : List Nat := (g.step? q c).getD []

/-- Where one edge may lead from `q`, if `q` is a state. -/
def successors? (g : Graph) (q : Nat) : Option (List Nat) :=
  (g.edges? q).map fun e => e.toList.map Prod.snd

/-- Whether some state has an edge labelled `l`. -/
def has (g : Graph) (l : Label) : Bool := g.states.any (·.edges.has l)

/-- Whether every edge leads to a state. -/
def confined (g : Graph) : Bool := g.states.all fun s => s.edges.toList.all (·.2 < g.size)

theorem edges?_addState (name : String) :
    (g.addState name).edges? p = if p = g.size then some ∅ else g.edges? p := by
  rw [edges?, addState, Array.getElem?_push, apply_ite (Option.map State.edges)]
  rfl

theorem edges?_addEdge : (g.addEdge p l q).edges? r =
    if p = r then (g.edges? r).map (·.insert l q) else g.edges? r := by
  rw [edges?, edges?, addEdge, Array.getElem?_modify]
  split <;> simp [Function.comp_def]

theorem edges?_eq_none : g.edges? q = none ↔ g.size ≤ q := by simp [edges?, size]

theorem targets?_eq_none : g.targets? q l = none ↔ g.size ≤ q := by
  simp [targets?, edges?_eq_none]

theorem targets?_eq_some (h : q < g.size) : g.targets? q l = some (g.targets q l) := by
  cases ht : g.targets? q l with
  | none => exact absurd (targets?_eq_none.mp ht) (Nat.not_le.mpr h)
  | some ts => simp [targets, ht]

theorem targets_eq_nil (h : g.size ≤ q) : g.targets q l = [] := by
  simp [targets, targets?_eq_none.mpr h]

theorem lt_size_of_mem_targets (h : r ∈ g.targets q l) : q < g.size :=
  Nat.not_le.mp fun hle => by simp [targets_eq_nil hle] at h

theorem mem_targets : r ∈ g.targets q l ↔ ∃ s, g.states[q]? = some s ∧ r ∈ s.edges.targets l := by
  cases h : g.states[q]? <;> simp [targets, targets?, edges?, h]

theorem targets_eq_of_getElem? {s : State} (h : g.states[q]? = some s) (l : Label) :
    g.targets q l = s.edges.targets l := by
  simp [targets, targets?, edges?, h]

theorem nodup_targets (g : Graph) (q : Nat) (l : Label) : (g.targets q l).Nodup := by
  cases h : g.edges? q with
  | none => simp [targets, targets?, h]
  | some e => simpa [targets, targets?, h] using e.nodup_targets l

theorem confined_iff : g.confined ↔ ∀ q l, ∀ r ∈ g.targets q l, r < g.size := by
  simp only [confined, Array.all_eq_true_iff_forall_mem, List.all_eq_true, decide_eq_true_eq,
    mem_targets]
  constructor
  · rintro h q l r ⟨s, hs, hr⟩
    exact h s (Array.mem_of_getElem? hs) (l, r) (Edges.mem_toList.mpr hr)
  · rintro h s hs ⟨l, r⟩ he
    obtain ⟨q, hq⟩ := Array.getElem?_of_mem hs
    exact h q l r ⟨s, hq, Edges.mem_toList.mp he⟩

theorem has_iff : g.has l ↔ ∃ q r, r ∈ g.targets q l := by
  simp only [has, Array.any_eq_true', Edges.has, Bool.not_eq_true',
    List.isEmpty_eq_false_iff_exists_mem, mem_targets]
  constructor
  · rintro ⟨s, hs, r, hr⟩
    obtain ⟨q, hq⟩ := Array.getElem?_of_mem hs
    exact ⟨q, r, s, hq, hr⟩
  · rintro ⟨q, r, s, hs, hr⟩
    exact ⟨s, Array.mem_of_getElem? hs, r, hr⟩

theorem step_eq (g : Graph) (q : Nat) (c : Char) :
    g.step q c = g.targets q (.letter c) ++ g.targets q .any := by
  cases h : g.edges? q <;> simp [step, step?, targets, targets?, h]

theorem mem_step {c : Char} : r ∈ g.step q c ↔ ∃ l, l.reads c ∧ r ∈ g.targets q l := by
  rw [step_eq, List.mem_append]
  constructor
  · rintro (h | h)
    · exact ⟨.letter c, by simp, h⟩
    · exact ⟨.any, by simp, h⟩
  · rintro ⟨l, hl, h⟩
    cases l with
    | letter d => exact .inl (by rwa [← eq_of_beq hl])
    | any => exact .inr h
    | epsilon => simp at hl

@[simp] theorem targets_addState (name : String) :
    (g.addState name).targets q l = g.targets q l := by
  simp only [targets, targets?, edges?, addState, Array.getElem?_push]
  split
  · next h => simp [h]
  · rfl

theorem targets_addEdge (h : p < g.size) : (g.addEdge p l q).targets r k =
    if r = p ∧ k = l then Edges.addNew (g.targets r k) q else g.targets r k := by
  simp only [targets, targets?, edges?, addEdge, Array.getElem?_modify]
  by_cases hr : p = r
  · subst hr
    obtain ⟨s, hs⟩ : ∃ s, g.states[p]? = some s := ⟨_, Array.getElem?_eq_getElem h⟩
    simp [hs, Edges.targets_insert]
  · simp [hr, Ne.symm hr]

end Graph

end Acceptor
