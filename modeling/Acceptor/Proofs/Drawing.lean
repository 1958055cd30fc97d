import Acceptor.Proofs.DrawingLines
import Mathlib.Data.List.Nodup
import Mathlib.Data.List.Sigma

/-!
# Drawings determine what is drawn

A machine whose drawing is the same looks alike: the lines of the drawing can be read off its text,
and each of them speaks of one entry, one state or one pair of ids. The text on an arrow is a list of
characters with commas between them, so it can be taken apart even if a comma is one of them.

A drawing does not tell the wildcard from the empty move, nor the order in which labels came, nor
final ids that are no state, and the alphabet is not drawn at all.

## Main results

* `Machine.looksLike_of_drawing_eq`: machines with the same drawing look alike.
* `Machine.arrowCount_drawing`: two ids have one arrow if there is an edge, and none otherwise.
* `Machine.drawing_determines`: both together.
-/

namespace Acceptor

open Drawing

variable {m n : Machine} {s s' : State} {q r i : Nat} {name label text : String} {final : Bool}

namespace Drawing

/-! ### The arrows from one state -/

theorem eraseDups_nodup {α : Type} [DecidableEq α] (xs : List α) : xs.eraseDups.Nodup := by
  cases xs with
  | nil => simp
  | cons x xs =>
    rw [List.eraseDups_cons, List.nodup_cons]
    exact ⟨by simp, eraseDups_nodup _⟩
termination_by xs.length
decreasing_by
  rw [List.length_cons]
  exact Nat.lt_succ_of_le (List.length_filter_le ..)

theorem targets_nodup (s : State) : (targets s).Nodup := eraseDups_nodup _

theorem mem_targets : r ∈ targets s ↔ ∃ l, r ∈ s.edges.targets l := by simp [targets]

theorem mem_labelsTo : text ∈ labelsTo s r ↔ ∃ l, r ∈ s.edges.targets l ∧ l.drawnText = text := by
  simp [labelsTo]

theorem length_toList_of_mem_labelsTo (h : text ∈ labelsTo s r) : text.toList.length = 1 := by
  obtain ⟨l, -, rfl⟩ := mem_labelsTo.mp h
  cases l with
  | letter c => exact congrArg List.length (String.toList_singleton c)
  | _ => rfl

/-! ### Texts on arrows -/

section Pieces

variable {xs ys : List (List Char)} {c : Char}

theorem cons_intercalate (x : List Char) (xs : List (List Char)) :
    c :: [c].intercalate (x :: xs) = (x :: xs).flatMap (c :: ·) := by
  induction xs generalizing x with
  | nil => simp
  | cons y ys ih =>
    rw [List.intercalate_cons_cons, List.append_assoc, List.singleton_append, ih]
    rfl

theorem flatMap_cons_inj (hxs : ∀ x ∈ xs, x.length = 1) (hys : ∀ y ∈ ys, y.length = 1)
    (h : xs.flatMap (c :: ·) = ys.flatMap (c :: ·)) : xs = ys := by
  induction xs generalizing ys with
  | nil =>
    cases ys with
    | nil => rfl
    | cons y ys => simp at h
  | cons x xs ih =>
    cases ys with
    | nil => simp at h
    | cons y ys =>
      obtain ⟨hx, hxs⟩ := List.forall_mem_cons.mp hxs
      obtain ⟨hy, hys⟩ := List.forall_mem_cons.mp hys
      obtain ⟨hhead, htail⟩ := List.append_inj (List.cons.inj h).2 (hx.trans hy.symm)
      rw [hhead, ih hxs hys htail]

theorem intercalate_ne_nil {x : List Char} (hx : x.length = 1) :
    [c].intercalate (x :: xs) ≠ [] := by
  intro h
  have hcons := congrArg List.length (cons_intercalate (c := c) x xs)
  rw [h, List.flatMap_cons, List.length_append, List.length_cons, List.length_cons, hx,
    List.length_nil] at hcons
  omega

/-- Pieces of one character can be told from the separators between them. -/
theorem intercalate_inj (hxs : ∀ x ∈ xs, x.length = 1) (hys : ∀ y ∈ ys, y.length = 1)
    (h : [c].intercalate xs = [c].intercalate ys) : xs = ys := by
  cases xs with
  | nil =>
    cases ys with
    | nil => rfl
    | cons y ys => exact absurd h.symm (intercalate_ne_nil (List.forall_mem_cons.mp hys).1)
  | cons x xs =>
    cases ys with
    | nil => exact absurd h (intercalate_ne_nil (List.forall_mem_cons.mp hxs).1)
    | cons y ys =>
      refine flatMap_cons_inj (c := c) hxs hys ?_
      rw [← cons_intercalate, ← cons_intercalate, h]

end Pieces

/-- The text on an arrow tells which labels it stands for. -/
theorem labelsTo_eq_of_arrowText_eq (h : arrowText s r = arrowText s' r) :
    labelsTo s r = labelsTo s' r := by
  have hlength (s : State) : ∀ x ∈ (labelsTo s r).map String.toList, x.length = 1 := by
    rw [List.forall_mem_map]
    intro x hx
    exact length_toList_of_mem_labelsTo hx
  have htext := congrArg String.toList h
  rw [arrowText, arrowText, String.toList_intercalate, String.toList_intercalate] at htext
  have hinjective : Function.Injective String.toList := fun _ _ => String.toList_inj.mp
  exact List.map_injective_iff.mpr hinjective (intercalate_inj (hlength s) (hlength s') htext)

end Drawing

namespace Machine

/-! ### The lines of a drawing -/

theorem node_mem_drawnLines : Line.node q name final ∈ m.drawnLines ↔
    ∃ s, m.graph.states[q]? = some s ∧ s.name = name ∧ decide (q ∈ m.finals) = final := by
  simp [drawnLines, List.mem_zipIdx_iff_getElem?]

theorem entry_mem_drawnLines : Line.entry i q ∈ m.drawnLines ↔ m.initial[i]? = some q := by
  simp [drawnLines, List.mem_zipIdx_iff_getElem?]

theorem arrow_mem_drawnLines : Line.arrow q r label ∈ m.drawnLines ↔
    ∃ s, m.graph.states[q]? = some s ∧ r ∈ targets s ∧ arrowText s r = label := by
  simp [drawnLines, List.mem_zipIdx_iff_getElem?]

theorem drawnArrows_eq : m.drawnArrows =
    m.graph.states.toList.zipIdx.flatMap fun p => (targets p.1).map (p.2, ·) := by
  simp [drawnArrows, drawnLines, Line.ends?, List.filterMap_cons, List.filterMap_flatMap,
    List.filterMap_map, Function.comp_def]

theorem drawnArrows_nodup (m : Machine) : m.drawnArrows.Nodup := by
  rw [drawnArrows_eq, List.nodup_flatMap]
  constructor
  · intro p hp
    exact (targets_nodup p.1).map fun _ _ h => (Prod.mk.inj h).2
  · refine (List.pairwise_map.mp (List.nodup_zipIdx_map_snd _)).imp fun hne => ?_
    rintro e he he'
    obtain ⟨r, -, rfl⟩ := List.mem_map.mp he
    obtain ⟨r', -, heq⟩ := List.mem_map.mp he'
    exact hne (Prod.mk.inj heq).1.symm

theorem mem_drawnArrows : (q, r) ∈ m.drawnArrows ↔ ∃ l, r ∈ m.graph.targets q l := by
  simp only [drawnArrows_eq, List.mem_flatMap, List.mem_map, List.mem_zipIdx_iff_getElem?,
    Array.getElem?_toList, Prod.exists, Prod.mk.injEq, mem_targets, Graph.mem_targets]
  constructor
  · rintro ⟨s, q, hs, r, ⟨l, hl⟩, rfl, rfl⟩
    exact ⟨l, s, hs, hl⟩
  · rintro ⟨l, s, hs, hl⟩
    exact ⟨s, q, hs, r, ⟨l, hl⟩, rfl, rfl⟩

theorem getElem?_names : (m.graph.states.toList.map State.name)[q]? = some name ↔
    ∃ final, Line.node q name final ∈ m.drawnLines := by
  simp only [List.getElem?_map, Option.map_eq_some_iff, Array.getElem?_toList, node_mem_drawnLines]
  constructor
  · rintro ⟨s, hs, rfl⟩
    exact ⟨_, s, hs, rfl, rfl⟩
  · rintro ⟨final, s, hs, rfl, -⟩
    exact ⟨s, hs, rfl⟩

/-! ### The drawing -/

theorem drawing_inj : m.drawing = n.drawing ↔ m.drawnLines = n.drawnLines := by
  rw [drawing_eq, drawing_eq, textOf_inj]

theorem exists_drawnText_of_drawnLines_eq (h : m.drawnLines = n.drawnLines)
    (ht : ∃ l, r ∈ m.graph.targets q l ∧ l.drawnText = text) :
    ∃ l, r ∈ n.graph.targets q l ∧ l.drawnText = text := by
  obtain ⟨l, hl, rfl⟩ := ht
  obtain ⟨s, hs, hr⟩ := Graph.mem_targets.mp hl
  have harrow : Line.arrow q r (arrowText s r) ∈ n.drawnLines :=
    h ▸ arrow_mem_drawnLines.mpr ⟨s, hs, mem_targets.mpr ⟨l, hr⟩, rfl⟩
  obtain ⟨s', hs', -, htext⟩ := arrow_mem_drawnLines.mp harrow
  have hmem : l.drawnText ∈ labelsTo s' r :=
    labelsTo_eq_of_arrowText_eq htext ▸ mem_labelsTo.mpr ⟨l, hr, rfl⟩
  obtain ⟨k, hk, hdrawn⟩ := mem_labelsTo.mp hmem
  exact ⟨k, Graph.mem_targets.mpr ⟨s', hs', hk⟩, hdrawn⟩

/-- **Machines with the same drawing look alike.** -/
theorem looksLike_of_drawing_eq (h : m.drawing = n.drawing) : m.LooksLike n := by
  have hlines := drawing_inj.mp h
  have hnames : m.graph.states.toList.map State.name = n.graph.states.toList.map State.name :=
    List.ext_getElem? fun q => Option.ext fun name => by
      rw [getElem?_names, getElem?_names, hlines]
  constructor
  case size => simpa [size, Graph.size] using congrArg List.length hnames
  case names => exact hnames
  case initial =>
    refine List.ext_getElem? fun i => Option.ext fun q => ?_
    rw [← entry_mem_drawnLines, ← entry_mem_drawnLines, hlines]
  case finals =>
    intro q hq
    have hs : m.graph.states[q]? = some m.graph.states[q] := Array.getElem?_eq_getElem hq
    have hnode := node_mem_drawnLines.mpr ⟨_, hs, rfl, rfl⟩
    rw [hlines] at hnode
    obtain ⟨s', -, -, hfinal⟩ := node_mem_drawnLines.mp hnode
    exact (decide_eq_decide.mp hfinal).symm
  case edges =>
    exact fun q r text => ⟨exists_drawnText_of_drawnLines_eq hlines,
      exists_drawnText_of_drawnLines_eq hlines.symm⟩

theorem arrowCount_drawing (m : Machine) (q r : Nat) :
    arrowCount m.drawing q r = if (q, r) ∈ m.drawnArrows then 1 else 0 := by
  rw [drawing_eq, arrowCount_textOf, ← drawnArrows, m.drawnArrows_nodup.count]

/-- **A drawing determines what is drawn.** Machines with the same drawing have the same states by
name, the same initial entries, the same final ones among their states, and edges between the same
ids, for which the same texts stand. Two ids between which there is an edge have exactly one arrow in
the text, and two ids without one have none. -/
theorem drawing_determines (m n : Machine) :
    (m.drawing = n.drawing → m.LooksLike n) ∧
    ∀ q r, ((∃ l, r ∈ m.graph.targets q l) → arrowCount m.drawing q r = 1) ∧
      ((¬∃ l, r ∈ m.graph.targets q l) → arrowCount m.drawing q r = 0) := by
  refine ⟨looksLike_of_drawing_eq, fun q r => ⟨fun h => ?_, fun h => ?_⟩⟩
  · rw [arrowCount_drawing, if_pos (mem_drawnArrows.mpr h)]
  · rw [arrowCount_drawing, if_neg fun hmem => h (mem_drawnArrows.mp hmem)]

/-- The first state has a name that looks like the end of its line and an arrow back to it. There is
an edge for a comma, and another one from it to the same state. -/
def forging (l : Label) (finals : List Nat) : Machine where
  graph := ⟨#[⟨"a\"];\n\tq1 -> q0 [label = \" a\\",
    .ofList [(.letter ',', 1), (l, 1), (.letter '"', 7)]⟩, ⟨"", ∅⟩]⟩
  initial := [0, 9]
  finals
  alphabet := ∅

theorem drawing_determines_forging :
    ((forging .any [1]).drawing = (forging .epsilon [2, 1, 1]).drawing ∧
      (forging .any [1]).LooksLike (forging .epsilon [2, 1, 1])) ∧
    ((∃ l, 1 ∈ (forging .any [1]).graph.targets 0 l) ∧
      arrowCount (forging .any [1]).drawing 0 1 = 1) ∧
    (¬∃ l, 0 ∈ (forging .any [1]).graph.targets 1 l) ∧
      arrowCount (forging .any [1]).drawing 1 0 = 0 := by
  have hdrawing : (forging .any [1]).drawing = (forging .epsilon [2, 1, 1]).drawing := by
    decide +kernel
  have hedge : ∃ l, 1 ∈ (forging .any [1]).graph.targets 0 l := ⟨.any, by decide⟩
  have hnone : ¬∃ l, 0 ∈ (forging .any [1]).graph.targets 1 l := by
    rintro ⟨l, hl⟩
    cases hl
  have hlaws := drawing_determines (forging .any [1]) (forging .epsilon [2, 1, 1])
  exact ⟨⟨hdrawing, hlaws.1 hdrawing⟩, ⟨hedge, (hlaws.2 0 1).1 hedge⟩,
    hnone, (hlaws.2 1 0).2 hnone⟩

end Machine

end Acceptor
