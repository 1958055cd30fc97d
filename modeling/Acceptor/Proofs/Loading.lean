import Acceptor.Loading
import Acceptor.Proofs.Conversions
import Acceptor.Proofs.Format

/-!
# What is read makes an automaton

Reading a description looks at lines one by one, while the demands of a kind are about the whole
machine. Yet reading leaves almost nothing for the demands to find. The indices of the header are
states. Every edge leads from a state to a state, on a letter of the alphabet or, if the kind allows
it, on nothing. In a deterministic automaton each state has one edge on each letter. And no line
makes a wildcard edge, so there is nothing to cover. One demand is left: a deterministic automaton
has one initial state, and reading accepts any number but zero.

## Main results

* `Description.meets_of_read`: the demands met by a machine that is read.
* `Description.ofMachine_eq_error_iff`: what is read makes an automaton, unless it is deterministic
  and has several initial states.
* `Automaton.ofDescriptionText_eq_ok`: what is loaded can be asked for as any kind.
* `Automaton.exists_message_of_ofDescriptionText`: there is a complaint about what does not load.
* `Automaton.loading_fails_alike`: no kind that is asked for makes loading fail.
-/

namespace Acceptor

namespace Machine

variable {m : Machine}

/-- Without wildcard edges there is nothing to cover. -/
theorem coverage_of_targets_any (hconfined : m.graph.confined)
    (hany : ∀ q, m.graph.targets q .any = []) : m.coverage = .ok () := by
  have hnone : m.rivalPairs = [] := by
    refine List.eq_nil_iff_forall_not_mem.mpr fun ⟨p, q⟩ h => ?_
    obtain ⟨s, hs, c, hc⟩ := mem_rivalPairs.mp h
    obtain ⟨i, hi⟩ := Array.getElem?_of_mem hs
    obtain ⟨-, hp, -⟩ := mem_rivals.mp hc
    rw [← Graph.targets_eq_of_getElem? hi, hany i] at hp
    cases hp
  rw [coverage_eq_ok hconfined, allIncluded_iff_forall hconfined (statePairs_rivalPairs hconfined)]
  simp [hnone]

/-- The number of initial states is looked at before anything else. -/
theorem check_of_length_initial (hne : m.initial ≠ []) (hlen : m.initial.length ≠ 1) :
    m.check .dfa = .error (.severalInitial m.initial.length) := by
  have hfirst : m.initialDefects .dfa = [.severalInitial m.initial.length] := by
    simp [initialDefects, hne, hlen]
  have hvalidate : m.validate .dfa = .error (.severalInitial m.initial.length) := by
    simp [validate, defects, hfirst]
  simp [check, hvalidate, bind, Except.bind]

end Machine

namespace Description

open Machine

variable {text : String} {d : Description} {h : Header} {names : List String}
  {edges : List Arrow} {lines : List (List Char)} {e : Defect} {p q r : Nat} {l : Label}

/-! ### The edges of transition lines -/

theorem TransitionLine.target_lt {line : List Char} {a : Arrow}
    (hline : TransitionLine h names line a) : a.2.2 < names.length := by
  obtain ⟨-, target, -, -, -, hq, -⟩ := hline
  exact (List.getElem?_eq_some_iff.mp hq).1

theorem TransitionLine.label_eq {line : List Char} {a : Arrow}
    (hline : TransitionLine h names line a) :
    (∃ x ∈ h.alphabet, a.2.1 = .letter x) ∨ a.2.1 = .epsilon ∧ h.kind = .enfa := by
  obtain ⟨-, -, label, -, -, -, hlabel⟩ := hline
  generalize a.2.1 = l at hlabel
  cases hlabel with
  | letter hx => exact .inl ⟨_, hx, rfl⟩
  | epsilon hk => exact .inr ⟨rfl, hk⟩

/-- The edges of the graph are those of the lines. -/
theorem exists_line_of_mem_targets (hlines : List.Forall₂ (TransitionLine h names) lines edges)
    (hr : r ∈ ((Graph.ofNames names).addEdges edges).targets q l) :
    (q, l, r) ∈ edges ∧ ∃ line, TransitionLine h names line (q, l, r) := by
  have hsources : ∀ a ∈ edges, a.1 < (Graph.ofNames names).size := fun a ha => by
    obtain ⟨line, hline⟩ := exists_transitionLine hlines ha
    rw [Graph.size_ofNames]
    exact hline.source_lt
  rw [Graph.mem_targets_addEdges hsources, Graph.targets_ofNames] at hr
  have hmem : (q, l, r) ∈ edges := by simpa using hr
  exact ⟨hmem, exists_transitionLine hlines hmem⟩

/-- Where edges are the first of their source and label, a state has at most one target under a
label. -/
theorem length_targets_le_one (hlines : List.Forall₂ (TransitionLine h names) lines edges)
    (hnew : AllNew (.ofNames names) edges) (q : Nat) (l : Label) :
    (((Graph.ofNames names).addEdges edges).targets q l).length ≤ 1 := by
  have hsame : ∀ r ∈ ((Graph.ofNames names).addEdges edges).targets q l,
      ∀ r' ∈ ((Graph.ofNames names).addEdges edges).targets q l, r = r' := by
    intro r hr r' hr'
    have hmem := (exists_line_of_mem_targets hlines hr).1
    have hmem' := (exists_line_of_mem_targets hlines hr').1
    have heq : (q, l, r) = (q, l, r') := List.inj_on_of_nodup_map hnew.2 hmem hmem' rfl
    simpa using heq
  have hnodup := ((Graph.ofNames names).addEdges edges).nodup_targets q l
  generalize ((Graph.ofNames names).addEdges edges).targets q l = rs at hsame hnodup
  match rs with
  | [] => simp
  | [r] => simp
  | r :: r' :: rs =>
    obtain rfl := hsame r (by simp) r' (by simp)
    simp at hnodup

/-! ### The demands -/

/-- What a successful reading has read, and what its checks have found. -/
theorem exists_lines_of_read (hread : read text = .ok d) : ∃ header h names lines edges,
    HeaderLine header h ∧ names.length = h.stateCount ∧
      List.Forall₂ (TransitionLine h names) lines edges ∧
      (h.kind = .dfa → AllNew (.ofNames names) edges ∧ ∀ q < names.length, ∀ x ∈ h.alphabet,
        ((Graph.ofNames names).addEdges edges).targets q (.letter x) ≠ []) ∧
      d = ⟨h.kind, ⟨(Graph.ofNames names).addEdges edges, h.initial, h.finals, h.alphabet⟩⟩ := by
  obtain ⟨h, c₁, g₁, c₂, g, c₃, hh, hs, ht, -, hsat, rfl⟩ := read_eq_ok.mp hread
  obtain ⟨header, -, hheader⟩ := readHeader_iff.mp ⟨c₁, hh, rfl⟩
  obtain ⟨-, names, -, -, hlen, hnames, rfl⟩ := readStates_iff.mp ⟨c₂, hs, rfl⟩
  obtain ⟨lines, edges, -, hlines, -, hnew, rfl⟩ := (readTransitions_iff hnames).mp ⟨c₃, ht, rfl⟩
  refine ⟨header, h, names, lines, edges, hheader, hlen, hlines, fun hk => ⟨hnew hk, ?_⟩, rfl⟩
  simpa [Machine.size, Graph.size_ofNames] using checkSaturated_eq_ok.mp hsat hk

theorem initial_ne_nil_of_read (hread : read text = .ok d) : d.machine.initial ≠ [] := by
  obtain ⟨header, h, -, -, -, hheader, -, -, -, rfl⟩ := exists_lines_of_read hread
  cases hheader with
  | intro _ _ _ _ _ _ hne => exact hne

/-- No line makes a wildcard edge. -/
theorem targets_any_of_read (hread : read text = .ok d) (q : Nat) :
    d.machine.graph.targets q .any = [] := by
  obtain ⟨-, h, names, lines, edges, -, -, hlines, -, rfl⟩ := exists_lines_of_read hread
  refine List.eq_nil_iff_forall_not_mem.mpr fun r hr => ?_
  obtain ⟨-, line, hline⟩ := exists_line_of_mem_targets hlines hr
  rcases hline.label_eq with ⟨x, -, hl⟩ | ⟨hl, -⟩ <;> cases hl

/-- A machine that is read meets the demands of its kind, if it has one initial state where one is
demanded. -/
theorem meets_of_read (hread : read text = .ok d)
    (hsingle : d.kind = .dfa → d.machine.initial.length = 1) : d.machine.Meets d.kind := by
  have hany := targets_any_of_read hread
  obtain ⟨header, h, names, lines, edges, hheader, hlen, hlines, hdfa, rfl⟩ :=
    exists_lines_of_read hread
  obtain ⟨hne, hlt⟩ : h.initial ≠ [] ∧ ∀ i ∈ h.initial ++ h.finals, i < names.length := by
    cases hheader with
    | intro _ _ _ _ _ _ hne _ _ _ hlt => exact ⟨hne, hlen ▸ hlt⟩
  have hsize : ((Graph.ofNames names).addEdges edges).size = names.length := by
    rw [Graph.size_addEdges, Graph.size_ofNames]
  refine ⟨hne, hsingle, fun q hq => ?_, fun q hq => ?_, fun q l r hr => ?_, fun q x hx => ?_,
    fun hk q => ?_, fun hk q hq x hx => ?_, fun _ q => ?_⟩
  · exact (hlt q (List.mem_append_left _ hq)).trans_eq hsize.symm
  · exact (hlt q (List.mem_append_right _ hq)).trans_eq hsize.symm
  · obtain ⟨-, line, hline⟩ := exists_line_of_mem_targets hlines hr
    exact hline.target_lt.trans_eq hsize.symm
  · obtain ⟨r, hr⟩ := List.exists_mem_of_ne_nil _ hx
    obtain ⟨-, line, hline⟩ := exists_line_of_mem_targets hlines hr
    rcases hline.label_eq with ⟨y, hy, hl⟩ | ⟨hl, -⟩ <;> cases hl
    exact hy
  · refine List.eq_nil_iff_forall_not_mem.mpr fun r hr => ?_
    obtain ⟨-, line, hline⟩ := exists_line_of_mem_targets hlines hr
    rcases hline.label_eq with ⟨x, -, hl⟩ | ⟨-, henfa⟩
    · cases hl
    · exact hk henfa
  · obtain ⟨hnew, hfull⟩ := hdfa hk
    refine List.length_eq_one_iff.mp (Nat.le_antisymm (length_targets_le_one hlines hnew _ _) ?_)
    exact List.length_pos_iff.mpr (hfull q (hsize ▸ hq) x hx)
  · simp [hany q]

/-- **What is read makes an automaton,** unless it is deterministic and has another number of
initial states than one, of which the check complains. -/
theorem ofMachine_eq_error_iff (hread : read text = .ok d) :
    Automaton.ofMachine d.kind d.machine = .error e ↔
      d.kind = .dfa ∧ d.machine.initial.length ≠ 1 ∧
        e = .severalInitial d.machine.initial.length := by
  by_cases hsingle : d.kind = .dfa → d.machine.initial.length = 1
  · have hm := meets_of_read hread hsingle
    have hcheck : d.machine.check d.kind = .ok () := by
      by_cases hk : d.kind = .dfa
      · rw [hk]
        exact Automaton.check_dfa_eq_ok.mpr
          ⟨hk ▸ hm, coverage_of_targets_any hm.confined (targets_any_of_read hread)⟩
      · exact (Automaton.check_eq_ok hk).mpr hm
    rw [Automaton.ofMachine_eq_ok.mpr ⟨hcheck, rfl⟩]
    refine iff_of_false nofun ?_
    rintro ⟨hk, hlen, -⟩
    exact hlen (hsingle hk)
  · obtain ⟨hk, hlen⟩ := Classical.not_imp.mp hsingle
    have hcheck := check_of_length_initial (initial_ne_nil_of_read hread) hlen
    rw [Automaton.ofMachine, hk, hcheck]
    simp [bind, Except.bind, hlen, eq_comm]

end Description

namespace Automaton

open Machine

variable {a b : Automaton} {k : Kind}

/-! ### Loading -/

theorem convert_self (a : Automaton) : a.convert a.kind = .ok a := by
  obtain ⟨kind, m⟩ := a
  cases kind <;> rfl

theorem kind_of_convert (h : a.convert k = .ok b) : b.kind = k := by
  have hmap {x : Except Fault Machine} (hx : x.map (⟨k, ·⟩) = .ok b) : b.kind = k := by
    cases x with
    | error e => cases hx
    | ok m => exact (Except.ok.inj hx).symm ▸ rfl
  unfold convert at h
  split at h
  · exact hmap h
  · exact hmap h
  · exact hmap h
  · exact (Except.ok.inj h).symm ▸ rfl

theorem kind_of_ofPatternText {text : String} {kind : Option Kind}
    (h : ofPatternText text kind = .ok a) : a.kind = kind.getD .dfa := by
  rw [ofPatternText] at h
  split at h
  · cases h
  · next p hp =>
    cases hm : checked .enfa p.machine with
    | error e => simp [ofPattern, hm, bind, Except.bind, Except.mapError] at h
    | ok m =>
      rw [ofPattern, hm] at h
      exact kind_of_convert (mapError_eq_ok.mp h)

theorem kind_of_ofDescriptionText {text : String} (h : ofDescriptionText text (some k) = .ok a) :
    a.kind = k := by
  obtain ⟨d, -, h⟩ := bind_eq_ok.mp h
  obtain ⟨c, -, h⟩ := bind_eq_ok.mp h
  exact kind_of_convert (mapError_eq_ok.mp h)

theorem ofDescription_eq_ok {d : Description} :
    ofDescription d = .ok a ↔ ofMachine d.kind d.machine = .ok a :=
  mapError_eq_ok

/-- Asking for a kind leaves an error as it is. -/
theorem ofDescriptionText_eq_error {text : String} {e : LoadError}
    (h : (Description.read text).mapError .description >>= ofDescription = .error e)
    (kind : Option Kind) : ofDescriptionText text kind = .error e := by
  rw [ofDescriptionText]
  cases hread : (Description.read text).mapError LoadError.description with
  | error e' => simpa [hread, bind, Except.bind] using h
  | ok d =>
    have hof : ofDescription d = .error e := by simpa [hread, bind, Except.bind] using h
    simp [hof, bind, Except.bind]

/-- Whatever is loaded can be converted to every kind. -/
theorem ofDescriptionText_eq_ok {text : String}
    (h : (Description.read text).mapError .description >>= ofDescription = .ok a) :
    ofDescriptionText text none = .ok a ∧
      ∀ k, ∃ b, a.convert k = .ok b ∧ b.kind = k ∧ ofDescriptionText text (some k) = .ok b := by
  obtain ⟨d, hread, hof⟩ := bind_eq_ok.mp h
  obtain ⟨hcheck, ha⟩ := ofMachine_eq_ok.mp (ofDescription_eq_ok.mp hof)
  have hvalid : a.Valid := by
    rw [ha]
    exact hcheck
  have hload {kind : Option Kind} {b : Automaton} (hb : a.convert (kind.getD d.kind) = .ok b) :
      ofDescriptionText text kind = .ok b :=
    bind_eq_ok.mpr ⟨d, hread, bind_eq_ok.mpr ⟨a, hof, by rw [hb, Except.mapError]⟩⟩
  refine ⟨hload ?_, fun k => ?_⟩
  · rw [ha]
    exact convert_self _
  · obtain ⟨b, hb, hkind, -⟩ := exists_convert hvalid k
    exact ⟨b, hb, hkind, hload hb⟩

/-- No machine of a description runs into an id that is no state, so there is a complaint about every
text that does not load. -/
theorem exists_message_of_ofDescriptionText {text : String} {kind : Option Kind} {e : LoadError}
    (h : ofDescriptionText text kind = .error e) : ∃ message, e.message? = some message := by
  cases hload : (Description.read text).mapError .description >>= ofDescription with
  | error e' =>
    obtain rfl : e' = e := Except.error.inj ((ofDescriptionText_eq_error hload kind).symm.trans h)
    cases hread : Description.read text with
    | error f =>
      obtain rfl : .description f = e' := by
        simpa [hread, Except.mapError, bind, Except.bind] using hload
      exact ⟨_, rfl⟩
    | ok d =>
      cases hof : ofMachine d.kind d.machine with
      | error f =>
        obtain rfl : .machine (.defect f) = e' := by
          simpa [hread, ofDescription, hof, Except.mapError, bind, Except.bind] using hload
        exact ⟨_, rfl⟩
      | ok a => simp [hread, ofDescription, hof, Except.mapError, bind, Except.bind] at hload
  | ok a =>
    obtain ⟨hnone, hsome⟩ := ofDescriptionText_eq_ok hload
    cases kind with
    | none => simp [hnone] at h
    | some k =>
      obtain ⟨b, -, -, hb⟩ := hsome k
      simp [hb] at h

/-- **Loading fails alike for every kind.** A description that is read makes an automaton, unless it
is deterministic and has another number of initial states than one. So a text either fails to load
with the same error whether a kind is asked for or not, or it loads and, if a kind is asked for, the
conversion to that kind is loaded. -/
theorem loading_fails_alike :
    (∀ text d, Description.read text = .ok d → ∀ e, ofMachine d.kind d.machine = .error e ↔
      d.kind = .dfa ∧ d.machine.initial.length ≠ 1 ∧
        e = .severalInitial d.machine.initial.length) ∧
    ∀ text k,
      (∃ e, ofDescriptionText text (some k) = .error e ∧ ofDescriptionText text none = .error e) ∨
      ∃ a b, ofDescriptionText text none = .ok a ∧ ofDescriptionText text (some k) = .ok b ∧
        a.convert k = .ok b ∧ b.kind = k := by
  refine ⟨fun text d hread e => Description.ofMachine_eq_error_iff hread, fun text k => ?_⟩
  cases h : (Description.read text).mapError .description >>= ofDescription with
  | error e => exact .inl ⟨e, ofDescriptionText_eq_error h _, ofDescriptionText_eq_error h _⟩
  | ok a =>
    obtain ⟨hnone, hsome⟩ := ofDescriptionText_eq_ok h
    obtain ⟨b, hb, hkind, hsome⟩ := hsome k
    exact .inr ⟨a, b, hnone, hsome, hb, hkind⟩

/-- Two states with the letter `a`, declared deterministic although both are initial. -/
def twoStarts : Description where
  kind := .dfa
  machine :=
    { graph := ⟨#[⟨"p", .ofList [(.letter 'a', 1)]⟩, ⟨"q", .ofList [(.letter 'a', 1)]⟩]⟩
      initial := [0, 1]
      finals := [1]
      alphabet := .ofList ['a'] }

/-- The text that describes it. -/
def twoStartsText : String := "dfa 2 2 (0, 1) (1) a\ns p\ns q\nt p q a\nt q q a\n"

theorem loading_fails_alike_twoStarts :
    Description.read twoStartsText = .ok twoStarts ∧
    (∀ e, ofMachine twoStarts.kind twoStarts.machine = .error e ↔
      twoStarts.kind = .dfa ∧ twoStarts.machine.initial.length ≠ 1 ∧
        e = .severalInitial twoStarts.machine.initial.length) ∧
    ((∃ e, ofDescriptionText twoStartsText (some .nfa) = .error e ∧
        ofDescriptionText twoStartsText none = .error e) ∨
      ∃ a b, ofDescriptionText twoStartsText none = .ok a ∧
        ofDescriptionText twoStartsText (some .nfa) = .ok b ∧
        a.convert .nfa = .ok b ∧ b.kind = .nfa) :=
  have hread : Description.read twoStartsText = .ok twoStarts := by decide +kernel
  ⟨hread, loading_fails_alike.1 _ _ hread, loading_fails_alike.2 _ .nfa⟩

end Automaton

end Acceptor
