import Acceptor.Graph.Additions
import Mathlib.Data.List.Induction

/-!
# What additions build

A graph keeps of its additions the names of the states, in order, and for each state the edges that
were added to it. Of these it keeps two orders: labels are listed by their first edge, and the
targets of a label by theirs. How the edges of different labels or states were mixed is forgotten,
as far as graphs are compared.

Additions are told from the right: one more of them goes to the end of what was said, and the graph
takes it up. So what a graph keeps is an invariant of the additions, and each addition has one step.

## Main results

* `Edges.targets_ofList`, `Edges.labels_ofList`: the two orders.
* `Graph.Built.add?`, `Graph.built_of_built?`: one addition, and all of them.
* `Graph.built?_isSome_iff`: additions build a graph exactly if edges are added to states.
* `Graph.agrees_iff`: the comparison of graphs.
* `Graph.built?_keeps_orders`: what is built, and when two graphs that are built compare equal.
-/

namespace Acceptor

theorem eraseDups_concat {α : Type} [DecidableEq α] (xs : List α) (x : α) :
    (xs ++ [x]).eraseDups = if x ∈ xs then xs.eraseDups else xs.eraseDups ++ [x] := by
  rw [List.eraseDups_append]
  by_cases h : x ∈ xs
  · simp [List.removeAll, h]
  · simp [List.removeAll, h, List.eraseDups_cons]

/-! ### The edges of one state -/

namespace Edges

variable {es : List (Label × Nat)} {l : Label}

theorem ofList_concat (es : List (Label × Nat)) (e : Label × Nat) :
    ofList (es ++ [e]) = (ofList es).insert e.1 e.2 := by
  simp [ofList]

/-- The targets of a label are those given for it, in the order of their first addition. -/
theorem targets_ofList (es : List (Label × Nat)) (l : Label) :
    (ofList es).targets l = ((es.filter fun e => e.1 = l).map Prod.snd).eraseDups := by
  induction es using List.reverseRecOn with
  | nil => rfl
  | append_singleton es e ih =>
    rw [ofList_concat, targets_insert, ih, List.filter_append, List.map_append]
    by_cases h : e.1 = l
    · simp [h, eraseDups_concat, addNew]
    · simp [h, Ne.symm h]

/-- The labels are those of the edges, in the order of their first addition. -/
theorem labels_ofList (es : List (Label × Nat)) :
    (ofList es).labels = (es.map Prod.fst).eraseDups := by
  induction es using List.reverseRecOn with
  | nil => rfl
  | append_singleton es e ih =>
    rw [ofList_concat, labels_insert, ih, List.map_append, List.map_singleton, eraseDups_concat]
    simp only [List.mem_eraseDups]

end Edges

theorem State.agrees_iff {s t : State} :
    s.agrees t ↔ s.name = t.name ∧ ∀ l, s.edges.targets l = t.edges.targets l := by
  simp [State.agrees, Edges.agrees_iff]

/-! ### Additions to a graph -/

namespace Graph

variable {g h : Graph} {a : Addition} {as bs : List Addition} {name : String} {p q r : Nat}
  {l : Label}

@[simp] theorem namesIn_concat_state :
    namesIn (as ++ [.state name]) = namesIn as ++ [name] := by
  simp [namesIn, Addition.name?]

@[simp] theorem namesIn_concat_edge : namesIn (as ++ [.edge p l q]) = namesIn as := by
  simp [namesIn, Addition.name?]

@[simp] theorem edgesFrom_concat_state :
    edgesFrom r (as ++ [.state name]) = edgesFrom r as := by
  simp [edgesFrom, Addition.edgeFrom?]

theorem edgesFrom_concat_edge : edgesFrom r (as ++ [.edge p l q]) =
    if p = r then edgesFrom r as ++ [(l, q)] else edgesFrom r as := by
  split <;> simp [edgesFrom, Addition.edgeFrom?, *]

/-- A graph holds what some additions say. -/
structure Built (as : List Addition) (g : Graph) : Prop where
  /-- The states have the names that are given. -/
  names : g.names = namesIn as
  /-- A state has the edges that are added to it. -/
  edges : ∀ p < g.size, g.edges? p = some (.ofList (edgesFrom p as))
  /-- No edges are added to an id that is no state. -/
  none : ∀ p, g.size ≤ p → edgesFrom p as = []

theorem built_empty : Built [] ∅ := ⟨rfl, fun p hp => absurd hp (Nat.not_lt_zero p), fun _ _ => rfl⟩

theorem Built.addState (hg : Built as g) : Built (as ++ [.state name]) (g.addState name) where
  names := by rw [names_addState, namesIn_concat_state, hg.names]
  edges p hp := by
    rw [edges?_addState, edgesFrom_concat_state]
    split
    · next heq => rw [hg.none p (Nat.le_of_eq heq.symm)]; rfl
    · next hne => exact hg.edges p (by rw [size_addState] at hp; omega)
  none p hp := by
    rw [edgesFrom_concat_state]
    exact hg.none p (by rw [size_addState] at hp; omega)

theorem Built.addEdge (hg : Built as g) (hp : p < g.size) :
    Built (as ++ [.edge p l q]) (g.addEdge p l q) where
  names := by rw [names_addEdge, namesIn_concat_edge, hg.names]
  edges r hr := by
    rw [size_addEdge] at hr
    rw [edges?_addEdge, edgesFrom_concat_edge, hg.edges r hr]
    split
    · rw [Edges.ofList_concat]; rfl
    · rfl
  none r hr := by
    rw [size_addEdge] at hr
    rw [edgesFrom_concat_edge, if_neg (by omega), hg.none r hr]

/-- One addition. -/
theorem Built.add? (hg : Built as g) (ha : g.add? a = some h) : Built (as ++ [a]) h := by
  cases a with
  | state name =>
    cases ha
    exact hg.addState
  | edge p l q =>
    rw [Graph.add?, addEdge?] at ha
    split at ha
    · next hp =>
      cases ha
      exact hg.addEdge hp
    · cases ha

theorem built?_concat : built? (as ++ [a]) = (built? as).bind (Graph.add? · a) := by
  simp [built?, List.foldlM_append]

/-- All of them. -/
theorem built_of_built? (hg : built? as = some g) : Built as g := by
  induction as using List.reverseRecOn generalizing g with
  | nil =>
    cases hg
    exact built_empty
  | append_singleton as a ih =>
    rw [built?_concat] at hg
    obtain ⟨g₀, hg₀, ha⟩ := Option.bind_eq_some_iff.mp hg
    exact (ih hg₀).add? ha

theorem add?_isSome : (g.add? a).isSome ↔ ∀ p l q, a = .edge p l q → p < g.size := by
  cases a with
  | state name => simp [Graph.add?]
  | edge p l q => simp [Graph.add?, addEdge?]

theorem sourced_concat : Sourced (as ++ [a]) ↔
    Sourced as ∧ ∀ p l q, a = .edge p l q → p < (namesIn as).length := by
  constructor
  · intro hsources
    refine ⟨fun before p l q after heq => ?_, fun p l q heq => ?_⟩
    · exact hsources before p l q (after ++ [a]) (by simp [heq])
    · exact hsources as p l q [] (by rw [heq])
  · rintro ⟨hsources, hlast⟩ before p l q after heq
    rcases List.eq_nil_or_concat' after with rfl | ⟨after, b, rfl⟩
    · obtain ⟨rfl, ha⟩ := List.append_inj' heq rfl
      exact hlast p l q (List.cons.inj ha).1
    · refine hsources before p l q after ?_
      rw [← List.cons_append, ← List.append_assoc] at heq
      exact (List.append_inj' heq rfl).1

/-- Additions build a graph exactly if edges are added to states that are there. -/
theorem built?_isSome_iff : (built? as).isSome ↔ Sourced as := by
  induction as using List.reverseRecOn with
  | nil => simp [built?, Sourced]
  | append_singleton as a ih =>
    rw [built?_concat, sourced_concat, ← ih]
    cases hg : built? as with
    | none => simp
    | some g => simp [add?_isSome, ← (built_of_built? hg).names]

/-! ### Comparison -/

theorem exists_state (hp : p < g.size) : ∃ s, g.states[p]? = some s :=
  ⟨_, Array.getElem?_eq_getElem hp⟩

theorem agrees_iff_states : g.agrees h ↔ g.size = h.size ∧
    ∀ (p : Nat) (s t : State), g.states[p]? = some s → h.states[p]? = some t → s.agrees t := by
  rw [agrees, Bool.and_eq_true, beq_iff_eq, List.all_eq_true]
  refine and_congr_right fun _ => ?_
  constructor
  · intro hall p s t hs ht
    rw [← Array.getElem?_toList] at hs ht
    exact hall (s, t) (List.mem_of_getElem? (List.getElem?_zip_eq_some.mpr ⟨hs, ht⟩))
  · rintro hall ⟨s, t⟩ hmem
    obtain ⟨p, hp⟩ := List.getElem?_of_mem hmem
    obtain ⟨hs, ht⟩ := List.getElem?_zip_eq_some.mp hp
    rw [Array.getElem?_toList] at hs ht
    exact hall p s t hs ht

/-- Graphs compare equal if they have the same names in the same order, and under every label the
same targets in the same order. -/
theorem agrees_iff : g.agrees h ↔ g.names = h.names ∧ ∀ p l, g.targets p l = h.targets p l := by
  rw [agrees_iff_states]
  constructor
  · rintro ⟨hsize, hall⟩
    have hcases (p : Nat) : (g.size ≤ p ∧ h.size ≤ p) ∨ ∃ s t, g.states[p]? = some s ∧
        h.states[p]? = some t ∧ s.name = t.name ∧ ∀ l, s.edges.targets l = t.edges.targets l := by
      by_cases hp : p < g.size
      · obtain ⟨s, hs⟩ := exists_state hp
        obtain ⟨t, ht⟩ := exists_state (hsize ▸ hp)
        exact .inr ⟨s, t, hs, ht, State.agrees_iff.mp (hall p s t hs ht)⟩
      · exact .inl ⟨Nat.not_lt.mp hp, hsize ▸ Nat.not_lt.mp hp⟩
    refine ⟨List.ext_getElem? fun p => ?_, fun p l => ?_⟩
    · rcases hcases p with ⟨hg, hh⟩ | ⟨s, t, hs, ht, hname, -⟩
      · rw [List.getElem?_eq_none (by simpa using hg), List.getElem?_eq_none (by simpa using hh)]
      · simp [getElem?_names, hs, ht, hname]
    · rcases hcases p with ⟨hg, hh⟩ | ⟨s, t, hs, ht, -, htargets⟩
      · rw [targets_eq_nil hg, targets_eq_nil hh]
      · rw [targets_eq_of_getElem? hs, targets_eq_of_getElem? ht, htargets]
  · rintro ⟨hnames, htargets⟩
    refine ⟨by rw [← length_names, hnames, length_names], fun p s t hs ht => ?_⟩
    refine State.agrees_iff.mpr ⟨?_, fun l => ?_⟩
    · have hname := congrArg (·[p]?) hnames
      simpa [getElem?_names, hs, ht] using hname
    · rw [← targets_eq_of_getElem? hs, ← targets_eq_of_getElem? ht, htargets]

/-! ### What is built -/

theorem Built.targets_eq (hg : Built as g) (p : Nat) (l : Label) :
    g.targets p l = (targetsFrom p l as).eraseDups := by
  by_cases hp : p < g.size
  · simp [targets, targets?, hg.edges p hp, Edges.targets_ofList, targetsFrom]
  · have hle := Nat.not_lt.mp hp
    simp [targets_eq_nil hle, targetsFrom, hg.none p hle]

/-- **What additions build.** If every edge is added to a state that is there, additions build a
graph. Its states have the names given, and each state lists the labels and, label by label, the
targets given for it, in the order of their first addition and without repetition; no label is
listed without a target. Two graphs that are built compare equal exactly if they have the same names
and the same targets, in the same order. So, where the targets for each state and label are given in
the same order, they compare equal exactly if the names are. -/
theorem built?_keeps_orders {as : List Addition} (hsources : Sourced as) :
    ∃ g, built? as = some g ∧ g.names = namesIn as ∧
      (∀ p < (namesIn as).length, ∃ e, g.edges? p = some e ∧
        (∀ l, e.targets l = (targetsFrom p l as).eraseDups) ∧
        e.groups =
          (labelsFrom p as).eraseDups.map (fun l => (l, (targetsFrom p l as).eraseDups)) ∧
        ∀ group ∈ e.groups, group.2 ≠ []) ∧
      ∀ bs : List Addition, Sourced bs → ∃ h, built? bs = some h ∧
        (g.agrees h ↔ g.names = h.names ∧ ∀ p l, g.targets p l = h.targets p l) ∧
        ((∀ p l, targetsFrom p l bs = targetsFrom p l as) →
          (g.agrees h ↔ namesIn bs = namesIn as)) := by
  obtain ⟨g, hg⟩ := Option.isSome_iff_exists.mp (built?_isSome_iff.mpr hsources)
  have hbuilt := built_of_built? hg
  refine ⟨g, hg, hbuilt.names, fun p hp => ?_, fun bs hbs => ?_⟩
  · rw [← hbuilt.names, length_names] at hp
    have htargets (l : Label) : (Edges.ofList (edgesFrom p as)).targets l =
        (targetsFrom p l as).eraseDups := Edges.targets_ofList _ l
    refine ⟨_, hbuilt.edges p hp, htargets, ?_, Edges.targets_ne_nil _⟩
    rw [Edges.groups_eq_map, Edges.labels_ofList]
    simp only [htargets, labelsFrom]
  · obtain ⟨h, hh⟩ := Option.isSome_iff_exists.mp (built?_isSome_iff.mpr hbs)
    have hbuilt' := built_of_built? hh
    refine ⟨h, hh, agrees_iff, fun hsame => ?_⟩
    have htargets : ∀ p l, g.targets p l = h.targets p l := fun p l => by
      rw [hbuilt.targets_eq, hbuilt'.targets_eq, hsame]
    rw [agrees_iff, hbuilt.names, hbuilt'.names, and_iff_left htargets, eq_comm]

/-- Edges that leave two states, added in between the states. -/
def mingled : List Addition :=
  [.state "p", .edge 0 (.letter 'b') 1, .edge 0 .any 0, .state "q", .edge 1 .any 0,
    .edge 0 (.letter 'b') 0, .edge 0 (.letter 'b') 1]

/-- The same additions. The edges of one state and label keep their order. -/
def grouped : List Addition :=
  [.state "p", .state "q", .edge 0 .any 0, .edge 0 (.letter 'b') 1, .edge 0 (.letter 'b') 0,
    .edge 0 (.letter 'b') 1, .edge 1 .any 0]

theorem built?_keeps_orders_mingled :
    Sourced mingled ∧ Sourced grouped ∧
      (∀ p l, targetsFrom p l grouped = targetsFrom p l mingled) ∧
      ∃ g h, built? mingled = some g ∧ built? grouped = some h ∧ g.agrees h ∧
        (∃ e, g.edges? 0 = some e ∧ e.groups = [(.letter 'b', [1, 0]), (.any, [0])]) ∧
        ∃ e, h.edges? 0 = some e ∧ e.groups = [(.any, [0]), (.letter 'b', [1, 0])] := by
  have hmingled : Sourced mingled := built?_isSome_iff.mp rfl
  have hgrouped : Sourced grouped := built?_isSome_iff.mp rfl
  have hsame (p : Nat) (l : Label) : targetsFrom p l grouped = targetsFrom p l mingled := by
    match p with
    | 0 =>
      have hedges : edgesFrom 0 mingled =
        [(.letter 'b', 1), (.any, 0), (.letter 'b', 0), (.letter 'b', 1)] := rfl
      have hedges' : edgesFrom 0 grouped =
        [(.any, 0), (.letter 'b', 1), (.letter 'b', 0), (.letter 'b', 1)] := rfl
      by_cases hletter : .letter 'b' = l
      · simp [targetsFrom, hedges, hedges', ← hletter]
      · simp [targetsFrom, hedges, hedges', hletter, List.filter_cons]
    | 1 => rfl
    | p + 2 => rfl
  obtain ⟨g, hg, -, hedges, hothers⟩ := built?_keeps_orders hmingled
  obtain ⟨h, hh, -, hagrees⟩ := hothers grouped hgrouped
  obtain ⟨h', hh', -, hedges', -⟩ := built?_keeps_orders hgrouped
  obtain rfl : h = h' := Option.some.inj (hh.symm.trans hh')
  obtain ⟨e, he, -, hgroups, -⟩ := hedges 0 (by decide)
  obtain ⟨e', he', -, hgroups', -⟩ := hedges' 0 (by decide)
  exact ⟨hmingled, hgrouped, hsame, g, h, hg, hh, (hagrees hsame).mpr rfl, ⟨e, he, hgroups⟩,
    e', he', hgroups'⟩

/-- Where states are added in another order, another graph is built. -/
theorem not_forall_agrees_of_perm : ¬ ∀ as bs : List Addition, bs.Perm as →
    (∀ p l, targetsFrom p l bs = targetsFrom p l as) →
    ∀ g h, built? as = some g → built? bs = some h → g.agrees h := by
  intro hall
  have hagrees := hall [.state "p", .state "q"] [.state "q", .state "p"] (.swap ..)
    (fun _ _ => rfl) _ _ rfl rfl
  revert hagrees
  decide

end Graph

end Acceptor
