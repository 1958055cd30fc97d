import Acceptor.CommandLine.Run
import Acceptor.Proofs.Loading

/-!
# Runs in a world

A run that fails should leave the world as it was. That is a property of the order in which a run
acts. Loading only looks at the world. After it the drawing is the one action that can fail, and it
fails before it has changed a file. Printing comes last and cannot fail. So it is enough to say what
each action does to a world that it starts in, and to go through the ways a run ends: its source does
not load, it only checks, it cannot draw, or it does everything.

Pictures are rendered by a program outside, after the drawing is written, and a run that asks for one
can fail with a file written. The theorems about all actions are therefore about runs without one. A
check renders nothing and needs no such condition.

## Main definitions

* `Run.Loads`: the source of a run holds an automaton.
* `Run.drawn`, `Run.printed`: what a run that does more than check writes and prints.
* `Run.Ended`: the ways a run ends.

## Main results

* `Run.run_ended`: every run ends in one of these ways.
* `Run.failing_run_leaves_no_trace`: a run that fails changes nothing, and a check prints one line.
-/

namespace Acceptor

namespace CommandLine

namespace World

theorem print_print (w : World) (s t : String) : (w.print s).print t = w.print (s ++ t) := by
  simp [print, String.append_assoc]

theorem print_empty (w : World) : w.print "" = w := by simp [print]

theorem host_write (w : World) (path text : String) :
    (host.write path text).run w =
      match w.tree.write w.directory path text.toUTF8 with
      | .ok tree => (.ok (), { w with tree })
      | .error e => (.error e, w) := by
  simp only [host, StateT.run_bind, StateT.run_get, pure_bind]
  cases w.tree.write w.directory path text.toUTF8 <;> rfl

end World

namespace Run

variable {α β : Type} {w w' : World} {o : Options} {a : Automaton} {e path : String}

/-! ### Steps in a row -/

theorem bind_run_ok {x : ExceptT String (StateM World) α} {f : α → ExceptT String (StateM World) β}
    {b : α} (h : x.run.run w = (.ok b, w')) : (x >>= f).run.run w = (f b).run.run w' := by
  rw [ExceptT.run_bind, StateT.run_bind, h]
  rfl

theorem bind_run_error {x : ExceptT String (StateM World) α}
    {f : α → ExceptT String (StateM World) β} (h : x.run.run w = (.error e, w')) :
    (x >>= f).run.run w = (.error e, w') := by
  rw [ExceptT.run_bind, StateT.run_bind, h]
  rfl

/-! ### Loading -/

/-- The source of a run holds an automaton, of the requested kind if one is requested. -/
def Loads (w : World) (o : Options) (a : Automaton) : Prop :=
  match o.source with
  | .file path => ∃ bytes text, w.tree.read w.directory path = .ok bytes ∧
      String.fromUTF8? bytes = some text ∧ Automaton.ofDescriptionText text o.kind = .ok a
  | .pattern text => Automaton.ofPatternText text o.kind = .ok a

theorem Loads.kind_eq {k : Kind} (h : Loads w o a) (hk : o.kind = some k) : a.kind = k := by
  rw [Loads, hk] at h
  split at h
  · obtain ⟨-, text, -, -, ha⟩ := h
    exact Automaton.kind_of_ofDescriptionText ha
  · exact Automaton.kind_of_ofPatternText h

theorem loadFile_eq_ok {bytes : Except FileError ByteArray} {kind : Option Kind} :
    loadFile path bytes kind = .ok a ↔ ∃ bs text, bytes = .ok bs ∧
      String.fromUTF8? bs = some text ∧ Automaton.ofDescriptionText text kind = .ok a := by
  unfold loadFile fileText
  cases bytes with
  | error e => simp
  | ok bs => cases htext : String.fromUTF8? bs <;> simp [htext, mapError_eq_ok]

/-- Loading looks at the world only. -/
theorem load_run (w : World) (o : Options) : ∃ r, (load World.host o).run.run w = (r, w) ∧
    ∀ a, r = .ok a ↔ Loads w o a := by
  unfold load Loads
  cases o.source with
  | file path =>
    exact ⟨loadFile path (w.tree.read w.directory path) o.kind, rfl, fun a => loadFile_eq_ok⟩
  | pattern text => exact ⟨loadPattern text o.kind, rfl, fun a => mapError_eq_ok⟩

theorem load_of_loads (h : Loads w o a) : (load World.host o).run.run w = (.ok a, w) := by
  obtain ⟨r, hr, hiff⟩ := load_run w o
  rw [hr, (hiff a).mpr h]

theorem run_of_not_loads (h : ¬∃ a, Loads w o a) :
    ∃ e, (run World.host o).run.run w = (.error e, w) := by
  obtain ⟨r, hr, hiff⟩ := load_run w o
  cases r with
  | error e => exact ⟨e, bind_run_error hr⟩
  | ok a => exact absurd ⟨a, (hiff a).mp rfl⟩ h

theorem run_of_check (h : Loads w o a) (hcheck : o.check = true) :
    (run World.host o).run.run w =
      (.ok (), w.print s!"No errors found in \"{o.source.name}\".\n") := by
  rw [run, bind_run_ok (load_of_loads h), if_pos hcheck]
  rfl

/-! ### Drawing -/

/-- The world after the drawing is written, if one is asked for. -/
def drawn (w : World) (o : Options) (a : Automaton) : Except FileError World :=
  match o.drawing with
  | none => .ok w
  | some path => do
    let tree ← w.tree.write w.directory path a.machine.drawing.toUTF8
    return { w with tree }

theorem onFile_run {verb : String} {act : StateM World (Except FileError Unit)}
    {r : Except FileError Unit} (h : act.run w = (r, w')) :
    (onFile verb path act).run.run w =
      (r.mapError fun e => s!"Can't {verb} {path}: {e.message}", w') := by
  have hlift : ((act : ExceptT String (StateM World) _)).run.run w = (.ok r, w') := by
    show (fun p : Except FileError Unit × World => (Except.ok p.1, p.2)) (act.run w) = _
    rw [h]
  rw [onFile, bind_run_ok hlift]
  cases r <;> rfl

/-! ### Printing -/

/-- What the listing prints, if it is asked for. -/
def listed (o : Options) (a : Automaton) : String :=
  if o.listing then a.machine.text ++ "\n" else ""

/-- What is printed about the word, if one is given. -/
def judged (o : Options) (a : Automaton) : String := o.word.elim "" (verdict a)

/-- What the conversation prints, if it is asked for. -/
def conversed (w : World) (o : Options) (a : Automaton) : String :=
  if o.interactive then transcript prompt (answer a) (Text.lines w.input.toList) else ""

/-- What is printed by a run that does more than check. -/
def printed (w : World) (o : Options) (a : Automaton) : String :=
  listed o a ++ judged o a ++ conversed w o a

/-- The part of a run that prints. -/
def tell {m : Type → Type} [Monad m] (h : Host m) (o : Options) (a : Automaton) :
    ExceptT String m Unit := do
  if o.listing then h.print (a.machine.text ++ "\n")
  if let some word := o.word then h.print (verdict a word)
  if o.interactive then h.converse prompt (answer a)

theorem tell_run (w : World) (o : Options) (a : Automaton) :
    (tell World.host o a).run.run w = (.ok (), w.print (printed w o a)) := by
  rw [tell, printed, ← World.print_print, ← World.print_print]
  simp only [listed, judged, conversed]
  -- an action that is not asked for prints the empty text
  cases o.listing <;> cases o.word <;> cases o.interactive <;>
    simp only [Bool.false_eq_true, if_false, if_true, Option.elim, World.print_empty] <;> rfl

/-! ### Whole runs -/

theorem run_of_drawn (h : Loads w o a) (hcheck : o.check = false) (hpicture : o.picture = none)
    (hdrawn : drawn w o a = .ok w') :
    (run World.host o).run.run w = (.ok (), w'.print (printed w o a)) := by
  rw [run, bind_run_ok (load_of_loads h), if_neg (by simp [hcheck]), hpicture]
  unfold drawn at hdrawn
  cases hd : o.drawing with
  | none =>
    rw [hd] at hdrawn
    obtain rfl : w = w' := Except.ok.inj hdrawn
    exact tell_run w o a
  | some path =>
    rw [hd] at hdrawn
    obtain ⟨tree, htree, hw⟩ := bind_eq_ok.mp hdrawn
    obtain rfl : { w with tree } = w' := Except.ok.inj hw
    have hwrite := World.host_write w path a.machine.drawing
    rw [htree] at hwrite
    exact (bind_run_ok (onFile_run hwrite)).trans (tell_run _ o a)

theorem run_of_drawn_error {f : FileError} (h : Loads w o a) (hcheck : o.check = false)
    (hdrawn : drawn w o a = .error f) : ∃ e, (run World.host o).run.run w = (.error e, w) := by
  rw [run, bind_run_ok (load_of_loads h), if_neg (by simp [hcheck])]
  unfold drawn at hdrawn
  cases hd : o.drawing with
  | none =>
    rw [hd] at hdrawn
    cases hdrawn
  | some path =>
    rw [hd] at hdrawn
    cases htree : w.tree.write w.directory path a.machine.drawing.toUTF8 with
    | ok tree =>
      simp only [htree] at hdrawn
      cases hdrawn
    | error f =>
      have hwrite := World.host_write w path a.machine.drawing
      rw [htree] at hwrite
      exact ⟨_, bind_run_error (onFile_run hwrite)⟩

/-- The ways a run without a picture ends, and a check with or without one. -/
inductive Ended (o : Options) (w : World) : Except String Unit × World → Prop where
  /-- The source does not load. -/
  | notLoaded (hloads : ¬∃ a, Loads w o a) (e : String) : Ended o w (.error e, w)
  /-- The source is only checked. -/
  | checked {a : Automaton} (hloads : Loads w o a) (hcheck : o.check = true) :
      Ended o w (.ok (), w.print s!"No errors found in \"{o.source.name}\".\n")
  /-- The drawing cannot be written. -/
  | notDrawn {a : Automaton} {f : FileError} (hloads : Loads w o a) (hcheck : o.check = false)
      (hdrawn : drawn w o a = .error f) (e : String) : Ended o w (.error e, w)
  /-- Everything that is asked for is done. -/
  | done {a : Automaton} {w' : World} (hloads : Loads w o a) (hcheck : o.check = false)
      (hdrawn : drawn w o a = .ok w') : Ended o w (.ok (), w'.print (printed w o a))

theorem run_ended (w : World) (h : o.check = true ∨ o.picture = none) :
    Ended o w ((run World.host o).run.run w) := by
  by_cases hloads : ∃ a, Loads w o a
  · obtain ⟨a, ha⟩ := hloads
    cases hcheck : o.check with
    | true =>
      rw [run_of_check ha hcheck]
      exact .checked ha hcheck
    | false =>
      have hpicture : o.picture = none := h.resolve_left (by simp [hcheck])
      cases hdrawn : drawn w o a with
      | error f =>
        obtain ⟨e, he⟩ := run_of_drawn_error ha hcheck hdrawn
        rw [he]
        exact .notDrawn ha hcheck hdrawn e
      | ok w' =>
        rw [run_of_drawn ha hcheck hpicture hdrawn]
        exact .done ha hcheck hdrawn
  · obtain ⟨e, he⟩ := run_of_not_loads hloads
    rw [he]
    exact .notLoaded hloads e

/-- **A failing run leaves no trace.** A run without a picture, or with a check, that fails leaves
the world as it was. Without a picture it fails exactly if its source does not load, or if it does
more than check and the drawing cannot be written. A check, whatever else is asked for, succeeds
exactly if its source loads, and all it does then is to print one line. What loads has the kind that
is asked for. -/
theorem failing_run_leaves_no_trace (o : Options) (w : World) :
    (o.check = true ∨ o.picture = none →
      ∀ e w', (run World.host o).run.run w = (.error e, w') → w' = w) ∧
    (o.picture = none → ((∃ e w', (run World.host o).run.run w = (.error e, w')) ↔
      (¬∃ a, Loads w o a) ∨ o.check = false ∧ ∃ a, Loads w o a ∧ ∃ f, drawn w o a = .error f)) ∧
    (o.check = true →
      (∀ w', (run World.host o).run.run w = (.ok (), w') →
        w' = { w with output := w.output ++ s!"No errors found in \"{o.source.name}\".\n" }) ∧
      ((∃ w', (run World.host o).run.run w = (.ok (), w')) ↔ ∃ a, Loads w o a)) ∧
    ∀ a k, Loads w o a → o.kind = some k → a.kind = k := by
  refine ⟨fun hplain e w' hrun => ?_, fun hpicture => ⟨?_, ?_⟩,
    fun hcheck => ⟨fun w' hrun => ?_, ?_, ?_⟩, fun a k h hk => h.kind_eq hk⟩
  · have hend := run_ended w hplain
    rw [hrun] at hend
    cases hend <;> rfl
  · rintro ⟨e, w', hrun⟩
    have hend := run_ended w (.inr hpicture)
    rw [hrun] at hend
    cases hend with
    | notLoaded hloads => exact .inl hloads
    | notDrawn hloads hcheck hdrawn => exact .inr ⟨hcheck, _, hloads, _, hdrawn⟩
  · rintro (hloads | ⟨hcheck, a, ha, f, hdrawn⟩)
    · obtain ⟨e, he⟩ := run_of_not_loads hloads
      exact ⟨e, w, he⟩
    · obtain ⟨e, he⟩ := run_of_drawn_error ha hcheck hdrawn
      exact ⟨e, w, he⟩
  · have hend := run_ended w (.inl hcheck)
    rw [hrun] at hend
    cases hend with
    | checked => rfl
    | done _ hcheck' => simp [hcheck] at hcheck'
  · rintro ⟨w', hrun⟩
    have hend := run_ended w (.inl hcheck)
    rw [hrun] at hend
    cases hend with
    | checked hloads => exact ⟨_, hloads⟩
    | done hloads => exact ⟨_, hloads⟩
  · rintro ⟨a, ha⟩
    exact ⟨_, run_of_check ha hcheck⟩

/-- Everything but a check and a picture, with a drawing in a directory that does not exist. -/
def astray : Options where
  source := .pattern "ab?"
  kind := some .nfa
  word := some "ab"
  check := false
  interactive := true
  listing := true
  drawing := some "missing/graph.dot"
  picture := none

/-- A directory with one file and an input of two lines. -/
def oneFile : World := .ofFiles [("graph.dot", .empty)] "ab\nq\n"

theorem failing_run_leaves_no_trace_astray :
    (run World.host astray).run.run oneFile =
        (.error "Can't write missing/graph.dot: No such file or directory (os error 2)", oneFile) ∧
    ((¬∃ a, Loads oneFile astray a) ∨
      astray.check = false ∧ ∃ a, Loads oneFile astray a ∧ ∃ f, drawn oneFile astray a = .error f) ∧
    (run World.host { astray with check := true }).run.run oneFile =
        (.ok (), { oneFile with output := "No errors found in \"ab?\".\n" }) ∧
    ∃ a, Loads oneFile { astray with check := true } a ∧ a.kind = .nfa := by
  have herror : ((run World.host astray).run.run oneFile).1 =
      .error "Can't write missing/graph.dot: No such file or directory (os error 2)" := by
    decide +kernel
  have hok : ((run World.host { astray with check := true }).run.run oneFile).1 = .ok () := by
    decide +kernel
  obtain ⟨hkept, hfails, -, -⟩ := failing_run_leaves_no_trace astray oneFile
  obtain ⟨-, -, hcheck, hkind⟩ := failing_run_leaves_no_trace { astray with check := true } oneFile
  obtain ⟨hprints, hloads⟩ := hcheck rfl
  obtain ⟨a, ha⟩ := hloads.mp ⟨_, Prod.ext hok rfl⟩
  exact ⟨Prod.ext herror (hkept (.inr rfl) _ _ (Prod.ext herror rfl)),
    (hfails rfl).mp ⟨_, _, Prod.ext herror rfl⟩, Prod.ext hok (hprints _ (Prod.ext hok rfl)),
    a, ha, hkind a .nfa ha rfl⟩

end Run

end CommandLine

end Acceptor
