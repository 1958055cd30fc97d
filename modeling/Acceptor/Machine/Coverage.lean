import Acceptor.Machine.Acceptance
import Acceptor.Machine.Defect

/-!
# Wildcard coverage

A walk takes the edge on a letter and leaves the wildcard edge beside it, tracking takes both. The
two agree if whatever the wildcard edge leads to is also reached by the letter. Coverage checks this
for every state and letter, as an inclusion between the languages of two states.

## Implementation notes

Inclusion is decided by a search over pairs of states that read the same word, the right one absent
once its walk has ended. A pair breaks the inclusion when the left state is final and the right one
is not. One wildcard step stands for all characters outside the alphabet. The steps of the single
states are tabulated for the search.
-/

namespace Acceptor

namespace Machine

/-- The number of a pair among the pairs of states below `n`, where the right one may be absent. -/
def pairKey (n : Nat) (p : Nat × Option Nat) : Nat := p.1 * (n + 1) + p.2.getD n

theorem pairKey_lt {n : Nat} {p : Nat × Option Nat} (h : p.1 < n) (h' : ∀ q ∈ p.2, q < n) :
    pairKey n p < n * (n + 1) := by
  obtain ⟨a, b⟩ := p
  have hb : b.getD n ≤ n := by
    cases b with
    | none => simp
    | some q => exact Nat.le_of_lt (h' q rfl)
  calc a * (n + 1) + b.getD n < a * (n + 1) + (n + 1) := by omega
    _ = (a + 1) * (n + 1) := by rw [Nat.add_mul, Nat.one_mul]
    _ ≤ n * (n + 1) := Nat.mul_le_mul_right _ h

theorem pairKey_inj {n : Nat} {p r : Nat × Option Nat} (hp : ∀ q ∈ p.2, q < n)
    (hr : ∀ q ∈ r.2, q < n) (h : pairKey n p = pairKey n r) : p = r := by
  obtain ⟨a, b⟩ := p
  obtain ⟨c, d⟩ := r
  have hb : b.getD n < n + 1 := by
    cases b with
    | none => exact Nat.lt_succ_self n
    | some q => exact Nat.lt_succ_of_lt (hp q rfl)
  have hd : d.getD n < n + 1 := by
    cases d with
    | none => exact Nat.lt_succ_self n
    | some q => exact Nat.lt_succ_of_lt (hr q rfl)
  simp only [pairKey] at h
  have hac : a = c := by
    have := congrArg (· / (n + 1)) h
    simpa [Nat.mul_comm _ (n + 1), Nat.mul_add_div, Nat.div_eq_of_lt, hb, hd] using this
  subst hac
  have hbd : b.getD n = d.getD n := by omega
  match b, d with
  | none, none => rfl
  | none, some q => exact absurd hbd (Nat.ne_of_gt (hr q rfl))
  | some q, none => exact absurd hbd (Nat.ne_of_lt (hp q rfl))
  | some q, some r => exact congrArg (fun x => (a, some x)) hbd

/-- The labels that tell characters apart for a walk: the letters of the alphabet, and the wildcard
for every other character. -/
def walkLabels (m : Machine) : List Label := m.alphabet.letters.map .letter ++ [.any]

/-- Where a walk goes from a state, for each label that tells characters apart. -/
def turns (m : Machine) (q : Nat) : List (Option Nat) := m.walkLabels.map (m.follow? q)

/-- The turns of all states. -/
def turnTable (m : Machine) : Array (List (Option Nat)) := (Array.range m.size).map m.turns

/-- The turns of a state by a table, which need not hold it. -/
def turnsBy (m : Machine) (table : Array (List (Option Nat))) (q : Nat) : List (Option Nat) :=
  match table[q]? with
  | some turns => turns
  | none => m.turns q

theorem turnsBy_turnTable (m : Machine) (q : Nat) : m.turnsBy m.turnTable q = m.turns q := by
  by_cases h : q < m.size <;> simp [turnsBy, turnTable, h]

/-- The pairs one step on: both walks follow the same label. A walk that has ended stays so on the
right and drops the pair on the left. -/
def pairSteps (m : Machine) (table : Array (List (Option Nat))) (p : Nat × Option Nat) :
    List (Nat × Option Nat) :=
  match p.2 with
  | none => (m.turnsBy table p.1).filterMap fun q => q.map (·, none)
  | some r => ((m.turnsBy table p.1).zip (m.turnsBy table r)).filterMap fun t => t.1.map (·, t.2)

theorem mem_pairSteps {m : Machine} {p r : Nat × Option Nat} :
    r ∈ m.pairSteps m.turnTable p ↔
      ∃ l ∈ m.walkLabels, m.follow? p.1 l = some r.1 ∧ p.2.bind (m.follow? · l) = r.2 := by
  obtain ⟨a, b⟩ := p
  obtain ⟨c, d⟩ := r
  cases b with
  | none =>
    simp only [pairSteps, turnsBy_turnTable, turns, List.mem_filterMap, List.mem_map,
      Option.map_eq_some_iff, Prod.mk.injEq, Option.bind_none]
    grind
  | some b =>
    simp only [pairSteps, turnsBy_turnTable, turns, List.zip_map', List.mem_filterMap, List.mem_map,
      Option.map_eq_some_iff, Prod.mk.injEq, Option.bind_some]
    grind

/-- Every pair of states that walks from one of the given pairs come to on the same word. -/
def pairs? (m : Machine) (starts : List (Nat × Nat)) : Option (List (Nat × Option Nat)) :=
  let table := m.turnTable
  Search.explore? (pairKey m.size) (some ∘ m.pairSteps table) (m.size * (m.size + 1))
    (starts.map fun p => (p.1, some p.2))

/-- Whether the right walk of a pair accepts if the left one does, given the final states. -/
def pairAgrees (finals : IdSet) (p : Nat × Option Nat) : Bool :=
  p.1 ∉ finals || p.2.any (· ∈ finals)

/-- Whether, for each of the pairs, every word accepted by the walk from the left state is accepted
by the walk from the right one. -/
def allIncluded (m : Machine) (starts : List (Nat × Nat)) : Bool :=
  let finals := m.finalSet
  (m.pairs? starts).any (·.all (pairAgrees finals))

/-- Whether every word accepted by the walk from `p` is accepted by the walk from `q`. -/
def included (m : Machine) (p q : Nat) : Bool := m.allIncluded [(p, q)]

/-- The letters of the alphabet beside the wildcard edge of a state, each with the target of the
wildcard edge and its own, where these differ. -/
def rivals (m : Machine) (s : State) : List (Char × Nat × Nat) :=
  match s.edges.targets .any with
  | [] => []
  | w :: _ => m.alphabet.letters.filterMap fun c =>
    match s.edges.targets (.letter c) with
    | [] => none
    | q :: _ => if q = w then none else some (c, w, q)

/-- The first letter on which a state does not cover its wildcard edge. -/
def uncoveredLetter? (m : Machine) (s : State) : Option Char :=
  ((m.rivals s).find? fun r => !m.included r.2.1 r.2.2).map Prod.fst

/-- The first state with a letter that leaves its wildcard edge uncovered. -/
def uncovered? (m : Machine) : Option Defect :=
  m.graph.states.toList.findSome? fun s => (m.uncoveredLetter? s).map (.uncovered s.name)

/-- The first state and letter that leave a wildcard edge uncovered. One search over the targets of
all states tells whether there is any. -/
def coverage (m : Machine) : Except Defect Unit :=
  if m.allIncluded ((m.graph.states.toList.flatMap m.rivals).map Prod.snd) then .ok ()
  else
    match m.uncovered? with
    | none => .ok ()
    | some d => .error d

end Machine

end Acceptor
