import Acceptor.Proofs.HeaderLine
import Acceptor.Proofs.PatternLanguage

/-!
# Reading accepts the format

Each line of a state adds a new name to the graph, and each line of a transition adds an edge
between states that are found by their names. So reading succeeds exactly on the texts in the
format, and gives what they describe.

## Main results

* `Description.leads_states`, `Description.leads_transitions`: what the lines of the states and of
  the transitions lead to.
* `Description.read_eq_ok_iff`: reading gives what a text in the format describes.
-/

namespace Acceptor

namespace Description

variable {g g' : Graph} {h : Header} {ws args : List Word} {w : Word} {keyword : Char} {n q : Nat}
  {cause : Cause} {lines : List (List Char)} {names : List String} {edges : List Arrow} {l : Label}

/-! ### State lines -/

theorem arguments_eq_ok : arguments keyword n cause ws = .ok args ↔
    ∃ w, ws = w :: args ∧ w.letters = [keyword] ∧ args.length + 1 = n := by
  cases ws with
  | nil => simp [arguments]
  | cons w ws =>
    rw [arguments]
    split
    · next hw => simp [hw]
    · next hw =>
      split
      · next hn =>
        refine iff_of_false (by simp) ?_
        rintro ⟨w', hws, -, hlen⟩
        cases hws
        exact hn hlen
      · next hn =>
        constructor
        · rintro hargs
          cases hargs
          exact ⟨w, rfl, not_not.mp hw, not_not.mp hn⟩
        · rintro ⟨w', hws, -⟩
          cases hws
          rfl

/-- The words of a line add a state of a new name. -/
def StateStep (g : Graph) (ws : List (List Char)) (g' : Graph) : Prop :=
  ∃ name, ws = [['s'], name.toList] ∧ name ∉ g.names ∧ g' = g.addState name

theorem addState_eq_ok (g : Graph) (ws : List Word) (g' : Graph) :
    addState g ws = .ok g' ↔ StateStep g (ws.map Word.letters) g' := by
  rw [addState, bind_eq_ok]
  constructor
  · rintro ⟨args, hargs, hadd⟩
    obtain ⟨w, rfl, hw, hlen⟩ := arguments_eq_ok.mp hargs
    obtain ⟨v, rfl⟩ := List.length_eq_one_iff.mp (Nat.succ.inj hlen)
    dsimp only at hadd
    split at hadd
    · cases hadd
    · next hfind =>
      cases hadd
      refine ⟨v.text, by simp [hw, Word.text], ?_, rfl⟩
      exact Graph.find?_eq_none.mp (Option.not_isSome_iff_eq_none.mp hfind)
  · rintro ⟨name, hws, hname, rfl⟩
    simp only [List.map_eq_cons_iff, List.map_eq_nil_iff] at hws
    obtain ⟨w, _, rfl, hw, v, _, rfl, hv, rfl⟩ := hws
    obtain rfl := Word.letters_eq.mp hv
    refine ⟨[v], arguments_eq_ok.mpr ⟨w, rfl, hw, rfl⟩, ?_⟩
    simp only [Graph.find?_eq_none.mpr hname]
    rfl

/-- The lines of the states add their names to those that there are. -/
theorem leads_states (hg : g.names.Nodup) : Leads StateStep lines g g' ↔
    ∃ names, List.Forall₂ StateLine lines names ∧ (g.names ++ names).Nodup ∧
      g' = names.foldl Graph.addState g := by
  induction lines generalizing g with
  | nil =>
    constructor
    · rintro rfl
      exact ⟨[], .nil, by simpa using hg, rfl⟩
    · rintro ⟨names, hlines, -, rfl⟩
      cases hlines
      rfl
  | cons line lines ih =>
    constructor
    · rintro ⟨g₁, ⟨name, hline, hname, rfl⟩, hleads⟩
      have hg₁ : (g.addState name).names.Nodup := by
        rw [Graph.names_addState]
        exact List.nodup_append_comm.mp (List.nodup_cons.mpr ⟨hname, hg⟩)
      obtain ⟨names, hlines, hnames, rfl⟩ := (ih hg₁).mp hleads
      exact ⟨name :: names, .cons hline hlines, by simpa using hnames, rfl⟩
    · rintro ⟨names, hlines, hnames, rfl⟩
      cases hlines with
      | @cons _ name _ names hline hlines =>
        have hnames' : ((g.addState name).names ++ names).Nodup := by simpa using hnames
        have hname : name ∉ g.names := fun hmem =>
          List.disjoint_of_nodup_append hnames hmem (List.mem_cons_self ..)
        exact ⟨_, ⟨name, hline, hname, rfl⟩,
          (ih (List.Nodup.of_append_left hnames')).mpr ⟨names, hlines, hnames', rfl⟩⟩

/-! ### Transition lines -/

theorem resolve_eq_ok : resolve g w = .ok q ↔ g.find? w.text = some q := by
  rw [resolve]
  split <;> simp_all

theorem readLabel_eq_ok : readLabel h w = .ok l ↔ LabelText h w.letters l := by
  rw [readLabel]
  constructor
  · intro hread
    split at hread
    · next hquotes =>
      split at hread
      · next hk =>
        cases hread
        exact hquotes ▸ .epsilon hk
      · cases hread
    · split at hread
      · next x hx =>
        split at hread
        · next hmem =>
          cases hread
          exact hx ▸ .letter hmem
        · cases hread
      · cases hread
  · intro hlabel
    generalize w.letters = letters at hlabel
    cases hlabel with
    | letter hmem => simp [hmem]
    | epsilon hk => simp [hk]

theorem checkNew_eq_ok {name label : Word} :
    checkNew h g q name label l = .ok () ↔ (h.kind = .dfa → g.targets q l = []) := by
  rw [checkNew]
  split <;> simp_all

/-- The words of a line add an edge between two states that are found by their names. It is the
first of its source and label in a deterministic automaton. -/
def TransitionStep (h : Header) (g : Graph) (ws : List (List Char)) (g' : Graph) : Prop :=
  ∃ source target label p q l, ws = [['t'], source.toList, target.toList, label] ∧
    g.find? source = some p ∧ g.find? target = some q ∧ LabelText h label l ∧
    (h.kind = .dfa → g.targets p l = []) ∧ g' = g.addEdge p l q

theorem addTransition_eq_ok (h : Header) (g : Graph) (ws : List Word) (g' : Graph) :
    addTransition h g ws = .ok g' ↔ TransitionStep h g (ws.map Word.letters) g' := by
  rw [addTransition, bind_eq_ok]
  constructor
  · rintro ⟨args, hargs, hadd⟩
    obtain ⟨w, rfl, hw, hlen⟩ := arguments_eq_ok.mp hargs
    obtain ⟨s, t, v, rfl⟩ := List.length_eq_three.mp (Nat.succ.inj hlen)
    simp only [bind_eq_ok, resolve_eq_ok, readLabel_eq_ok] at hadd
    obtain ⟨p, hp, q, hq, l, hl, _, hnew, hg'⟩ := hadd
    cases hg'
    exact ⟨s.text, t.text, v.letters, p, q, l, by simp [hw, Word.text], hp, hq, hl,
      checkNew_eq_ok.mp hnew, rfl⟩
  · rintro ⟨source, target, label, p, q, l, hws, hp, hq, hl, hnew, rfl⟩
    simp only [List.map_eq_cons_iff, List.map_eq_nil_iff] at hws
    obtain ⟨w, _, rfl, hw, s, _, rfl, hs, t, _, rfl, ht, v, _, rfl, rfl, rfl⟩ := hws
    obtain rfl := Word.letters_eq.mp hs
    obtain rfl := Word.letters_eq.mp ht
    refine ⟨[s, t, v], arguments_eq_ok.mpr ⟨w, rfl, hw, rfl⟩, ?_⟩
    simp only [bind_eq_ok, resolve_eq_ok, readLabel_eq_ok]
    exact ⟨p, hp, q, hq, l, hl, (), checkNew_eq_ok.mpr hnew, rfl⟩

/-- What an edge leaves from, and on which label. -/
def edgeKey (a : Arrow) : Nat × Label := (a.1, a.2.1)

theorem count_edgeKey (edges : List Arrow) (q : Nat) (l : Label) :
    (edges.map edgeKey).count (q, l) = edges.countP fun a => a.1 = q ∧ a.2.1 = l := by
  rw [List.count_eq_countP, List.countP_map]
  refine List.countP_congr fun a _ => ?_
  simp [edgeKey]

/-- Edges are the first of their source and label, in the graph and among themselves. -/
def AllNew (g : Graph) (edges : List Arrow) : Prop :=
  (∀ a ∈ edges, g.targets a.1 a.2.1 = []) ∧ (edges.map edgeKey).Nodup

theorem allNew_cons {a : Arrow} (ha : a.1 < g.size) :
    AllNew g (a :: edges) ↔
      g.targets a.1 a.2.1 = [] ∧ AllNew (g.addEdge a.1 a.2.1 a.2.2) edges := by
  have htargets (b : Arrow) : (g.addEdge a.1 a.2.1 a.2.2).targets b.1 b.2.1 = [] ↔
      g.targets b.1 b.2.1 = [] ∧ edgeKey b ≠ edgeKey a := by
    rw [Graph.targets_addEdge ha]
    split
    · next h => simp [edgeKey, h, Edges.addNew_ne_nil]
    · next h => simp [edgeKey, h]
  simp only [AllNew, htargets, List.forall_mem_cons, List.map_cons, List.nodup_cons, List.mem_map,
    forall_and, not_exists, not_and, and_assoc]

/-- The lines of the transitions add their edges to those that there are. -/
theorem leads_transitions (hg : g.names = names) (hnames : names.Nodup) :
    Leads (TransitionStep h) lines g g' ↔
      ∃ edges, List.Forall₂ (TransitionLine h names) lines edges ∧
        (h.kind = .dfa → AllNew g edges) ∧ g' = g.addEdges edges := by
  induction lines generalizing g with
  | nil =>
    constructor
    · rintro rfl
      exact ⟨[], .nil, by simp [AllNew], rfl⟩
    · rintro ⟨edges, hlines, -, rfl⟩
      cases hlines
      rfl
  | cons line lines ih =>
    -- adding an edge changes no name, so the same states are found on every line
    have hfind (name : String) (q : Nat) : g.find? name = some q ↔ names[q]? = some name := by
      rw [Graph.find?_eq_some (hg ▸ hnames), hg]
    have hlt {q : Nat} {name : String} (hq : names[q]? = some name) : q < g.size := by
      rw [← Graph.length_names, hg]
      exact (List.getElem?_eq_some_iff.mp hq).1
    constructor
    · rintro ⟨g₁, ⟨source, target, label, p, q, l, hline, hp, hq, hl, hnew, rfl⟩, hleads⟩
      rw [hfind] at hp hq
      obtain ⟨edges, hlines, hkeys, rfl⟩ := (ih (by rw [Graph.names_addEdge, hg])).mp hleads
      refine ⟨(p, l, q) :: edges, .cons ⟨source, target, label, hline, hp, hq, hl⟩ hlines,
        fun hk => ?_, rfl⟩
      exact (allNew_cons (hlt hp)).mpr ⟨hnew hk, hkeys hk⟩
    · rintro ⟨edges, hlines, hkeys, rfl⟩
      cases hlines with
      | @cons _ a _ edges hline hlines =>
        obtain ⟨source, target, label, hline, hp, hq, hl⟩ := hline
        have hkeys' := fun hk => (allNew_cons (hlt hp)).mp (hkeys hk)
        rw [← hfind] at hp hq
        exact ⟨_, ⟨source, target, label, a.1, a.2.2, a.2.1, hline, hp, hq, hl,
            fun hk => (hkeys' hk).1, rfl⟩,
          (ih (by rw [Graph.names_addEdge, hg])).mpr
            ⟨edges, hlines, fun hk => (hkeys' hk).2, rfl⟩⟩

/-! ### Saturation -/

theorem gaps_eq_nil {m : Machine} : gaps m = [] ↔
    ∀ q < m.size, ∀ x ∈ m.alphabet, m.graph.targets q (.letter x) ≠ [] := by
  simp only [gaps, List.filter_eq_nil_iff, List.forall_mem_map, ne_eq, decide_not,
    Bool.not_eq_eq_eq_not, Bool.not_true, decide_eq_false_iff_not, not_not,
    Machine.missingLetters_eq_nil]
  constructor
  · intro h q hq x hx
    rw [Graph.targets_eq_of_getElem? (Array.getElem?_eq_getElem hq)]
    exact h _ (Array.getElem_mem_toList hq) x hx
  · intro h s hs x hx
    obtain ⟨q, hq, rfl⟩ := Array.getElem_of_mem (Array.mem_toList_iff.mp hs)
    rw [← Graph.targets_eq_of_getElem? (Array.getElem?_eq_getElem hq)]
    exact h q hq x hx

theorem checkSaturated_eq_ok {k : Kind} {m : Machine} : checkSaturated k m = .ok () ↔
    (k = .dfa → ∀ q < m.size, ∀ x ∈ m.alphabet, m.graph.targets q (.letter x) ≠ []) := by
  rw [checkSaturated, ← gaps_eq_nil]
  split <;> simp_all

theorem TransitionLine.source_lt {line : List Char} {a : Arrow}
    (hline : TransitionLine h names line a) : a.1 < names.length := by
  obtain ⟨source, -, -, -, hp, -⟩ := hline
  exact (List.getElem?_eq_some_iff.mp hp).1

theorem TransitionLine.exists_letter {line : List Char} {a : Arrow} (hk : h.kind ≠ .enfa)
    (hline : TransitionLine h names line a) : ∃ x ∈ h.alphabet, a.2.1 = .letter x := by
  obtain ⟨-, -, label, -, -, -, hlabel⟩ := hline
  generalize a.2.1 = l at hlabel
  cases hlabel with
  | letter hx => exact ⟨_, hx, rfl⟩
  | epsilon hk' => exact absurd hk' hk

theorem exists_transitionLine {a : Arrow}
    (hlines : List.Forall₂ (TransitionLine h names) lines edges) (ha : a ∈ edges) :
    ∃ line, TransitionLine h names line a := by
  obtain ⟨i, hi, rfl⟩ := List.getElem_of_mem ha
  exact ⟨_, (List.forall₂_iff_get.mp hlines).2 i (hlines.length_eq ▸ hi) hi⟩

/-- The edges of transition lines of a deterministic automaton are new and leave no gap exactly if
there is one for each state and each letter. -/
theorem allNew_and_saturated_iff (hk : h.kind = .dfa)
    (hlines : List.Forall₂ (TransitionLine h names) lines edges) :
    (AllNew (.ofNames names) edges ∧ ∀ q < names.length, ∀ x ∈ h.alphabet,
      ((Graph.ofNames names).addEdges edges).targets q (.letter x) ≠ []) ↔
    ∀ q < names.length, ∀ x ∈ h.alphabet,
      edges.countP (fun a => a.1 = q ∧ a.2.1 = .letter x) = 1 := by
  have hedge (a : Arrow) (ha : a ∈ edges) :
      a.1 < names.length ∧ ∃ x ∈ h.alphabet, a.2.1 = .letter x := by
    obtain ⟨line, hline⟩ := exists_transitionLine hlines ha
    exact ⟨hline.source_lt, hline.exists_letter (by simp [hk])⟩
  have hsize : ∀ a ∈ edges, a.1 < (Graph.ofNames names).size := by
    rw [Graph.size_ofNames]
    exact fun a ha => (hedge a ha).1
  have hgap (q : Nat) (x : Char) :
      ((Graph.ofNames names).addEdges edges).targets q (.letter x) ≠ [] ↔
        (q, Label.letter x) ∈ edges.map edgeKey := by
    simp [List.eq_nil_iff_forall_not_mem, Graph.mem_targets_addEdges hsize,
      Graph.targets_ofNames, edgeKey]
  have hnew : AllNew (.ofNames names) edges ↔ (edges.map edgeKey).Nodup := by
    simp [AllNew, Graph.targets_ofNames]
  simp only [← count_edgeKey, hgap, hnew]
  constructor
  · rintro ⟨hnodup, hfull⟩ q hq x hx
    exact List.count_eq_one_of_mem hnodup (hfull q hq x hx)
  · intro hone
    refine ⟨List.nodup_iff_count_le_one.mpr fun key => ?_, fun q hq x hx => ?_⟩
    · -- every edge of the lines leaves a state on a letter, so its key is one of those counted
      by_cases hkey : key ∈ edges.map edgeKey
      · obtain ⟨a, ha, rfl⟩ := List.mem_map.mp hkey
        obtain ⟨hq, x, hx, hl⟩ := hedge a ha
        have h1 := hone a.1 hq x hx
        rw [← hl] at h1
        exact h1.le
      · rw [List.count_eq_zero.mpr hkey]
        exact Nat.zero_le 1
    · exact List.count_pos_iff.mp (by rw [hone q hq x hx]; exact Nat.one_pos)

/-! ### The whole text -/

theorem read_eq_ok {text : String} {d : Description} : read text = .ok d ↔ ∃ h c₁ g₁ c₂ g c₃,
    readHeader (.ofText text) = .ok (h, c₁) ∧ readStates h c₁ = .ok (g₁, c₂) ∧
      readTransitions h g₁ c₂ = .ok (g, c₃) ∧ readEnd c₃ = .ok () ∧
      checkSaturated h.kind ⟨g, h.initial, h.finals, h.alphabet⟩ = .ok () ∧
      d = ⟨h.kind, ⟨g, h.initial, h.finals, h.alphabet⟩⟩ := by
  simp only [read, bind_eq_ok, Prod.exists, pure, Except.pure, Except.ok.injEq]
  constructor
  · rintro ⟨h, c₁, hh, g₁, c₂, hs, g, c₃, ht, _, he, _, hsat, rfl⟩
    exact ⟨h, c₁, g₁, c₂, g, c₃, hh, hs, ht, he, hsat, rfl⟩
  · rintro ⟨h, c₁, g₁, c₂, g, c₃, hh, hs, ht, he, hsat, rfl⟩
    exact ⟨h, c₁, hh, g₁, c₂, hs, g, c₃, ht, (), he, (), hsat, rfl⟩

theorem readStates_iff {c : Cursor} {rest : List (List Char)} :
    (∃ d, readStates h c = .ok (g, d) ∧ contentLines d.rest = rest) ↔
      ∃ lines names, contentLines c.rest = lines ++ rest ∧ List.Forall₂ StateLine lines names ∧
        names.length = h.stateCount ∧ names.Nodup ∧ g = .ofNames names := by
  rw [readStates, readLines_iff addState_eq_ok]
  constructor
  · rintro ⟨lines, hlines, hlen, hleads⟩
    obtain ⟨names, hstates, hnodup, rfl⟩ := (leads_states (by simp)).mp hleads
    exact ⟨lines, names, hlines, hstates, hstates.length_eq ▸ hlen, hnodup, rfl⟩
  · rintro ⟨lines, names, hlines, hstates, hlen, hnodup, rfl⟩
    exact ⟨lines, hlines, hstates.length_eq.trans hlen,
      (leads_states (by simp)).mpr ⟨names, hstates, hnodup, rfl⟩⟩

theorem readTransitions_iff {c : Cursor} {rest : List (List Char)} (hnames : names.Nodup) :
    (∃ d, readTransitions h (.ofNames names) c = .ok (g, d) ∧ contentLines d.rest = rest) ↔
      ∃ lines edges, contentLines c.rest = lines ++ rest ∧
        List.Forall₂ (TransitionLine h names) lines edges ∧ edges.length = h.transitionCount ∧
        (h.kind = .dfa → AllNew (.ofNames names) edges) ∧
        g = (Graph.ofNames names).addEdges edges := by
  rw [readTransitions, readLines_iff (addTransition_eq_ok h)]
  simp only [leads_transitions (Graph.names_ofNames names) hnames]
  constructor
  · rintro ⟨lines, hlines, hlen, edges, hedges, hnew, rfl⟩
    exact ⟨lines, edges, hlines, hedges, hedges.length_eq ▸ hlen, hnew, rfl⟩
  · rintro ⟨lines, edges, hlines, hedges, hlen, hnew, rfl⟩
    exact ⟨lines, hlines, hedges.length_eq.trans hlen, edges, hedges, hnew, rfl⟩

/-- **Reading a description** succeeds exactly if the text is in the format, and gives what the text
describes. -/
theorem read_eq_ok_iff (text : String) (d : Description) :
    read text = .ok d ↔ Describes text.toList d := by
  rw [read_eq_ok]
  constructor
  · rintro ⟨h, c₁, g₁, c₂, g, c₃, hh, hs, ht, he, hsat, rfl⟩
    obtain ⟨header, htext, hheader⟩ := readHeader_iff.mp ⟨c₁, hh, rfl⟩
    obtain ⟨stateLines, names, h₁, hstates, hlen, hnames, rfl⟩ := readStates_iff.mp ⟨c₂, hs, rfl⟩
    obtain ⟨transitionLines, edges, h₂, hedges, hlen', hnew, rfl⟩ :=
      (readTransitions_iff hnames).mp ⟨c₃, ht, rfl⟩
    rw [h₁, h₂, readEnd_eq_ok.mp he, List.append_nil] at htext
    refine .intro htext hheader hstates hlen hnames hedges hlen' fun hk => ?_
    refine (allNew_and_saturated_iff hk hedges).mp ⟨hnew hk, ?_⟩
    simpa [Machine.size, Graph.size_ofNames] using checkSaturated_eq_ok.mp hsat hk
  · rintro @⟨header, stateLines, transitionLines, h, names, edges, htext, hheader, hstates, hlen,
      hnames, hedges, hlen', hone⟩
    obtain ⟨c₁, hh, h₁⟩ := readHeader_iff (c := .ofText text).mpr ⟨header, htext, hheader⟩
    have hfull := fun hk => (allNew_and_saturated_iff hk hedges).mpr (hone hk)
    obtain ⟨c₂, hs, h₂⟩ := readStates_iff.mpr
      ⟨stateLines, names, h₁, hstates, hlen, hnames, rfl⟩
    obtain ⟨c₃, ht, h₃⟩ : ∃ d, readTransitions h (.ofNames names) c₂ =
        .ok ((Graph.ofNames names).addEdges edges, d) ∧ contentLines d.rest = [] :=
      (readTransitions_iff hnames).mpr ⟨transitionLines, edges, by rw [h₂, List.append_nil],
        hedges, hlen', fun hk => (hfull hk).1, rfl⟩
    refine ⟨h, c₁, _, c₂, _, c₃, hh, hs, ht, readEnd_eq_ok.mpr h₃,
      checkSaturated_eq_ok.mpr fun hk => ?_, rfl⟩
    simpa [Machine.size, Graph.size_ofNames] using (hfull hk).2

/-- Blank lines, blanks around words, a carriage return and text right behind a parenthesis. -/
example : read "\n nfa 2\t1 (1)( 0 ,1)ab\r\n\ns p\ns q\n  t p q b" =
    .ok ⟨.nfa, ⟨⟨#[⟨"p", .ofList [(.letter 'b', 1)]⟩, ⟨"q", ∅⟩]⟩, [1], [0, 1],
      .ofList ['a', 'b']⟩⟩ := by
  decide +kernel

end Description

end Acceptor
