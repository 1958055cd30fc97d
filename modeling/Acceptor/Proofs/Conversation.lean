import Acceptor.Proofs.CommandRuns
import Acceptor.Proofs.LineByLine

/-!
# Conversations

What a conversation prints depends on the lines of the input, and the ends of lines are taken off in
two places: a reader of lines takes off the line break and one carriage return before it, and the
conversation takes off the carriage returns that are left. `Typed` says in one place what comes out
of both, so that nothing has to be known about the division of the work: a line is what precedes a
line break or the end of the text, without the carriage returns at its end, and nothing after the
last line break is no line.

The replies are the texts that a run prints which is asked for a word or for the listing and for
nothing else, so a conversation can be read as a row of such runs.

## Main definitions

* `Run.Typed`: the lines of an input.
* `Run.asked`, `Run.reply`: the lines that are answered, and the answers.

## Main results

* `Run.typed_iff`: the lines of an input as the program reads them.
* `Run.exchange_eq`: the pieces that a conversation prints.
* `Run.conversation_of_typed`: the whole conversation, for every automaton and every input.
-/

namespace Acceptor

variable {x line : List Char}

namespace Text

theorem lines_of_not_mem (hbreak : '\n' ∉ x) (hne : x ≠ []) : lines x = [x] := by
  rw [lines, cut_of_not_mem hbreak, linesOf, if_neg hne]

theorem lines_append (hbreak : '\n' ∉ x) (rest : List Char) :
    lines (x ++ '\n' :: rest) = chomp x :: lines rest := by
  obtain ⟨p, ps, hp⟩ := List.exists_cons_of_ne_nil (cut_ne_nil '\n' rest)
  rw [lines, lines, cut_append hbreak, hp, linesOf]
  simp

end Text

namespace CommandLine

/-! ### Carriage returns -/

theorem inputLine_append_return (x : List Char) : inputLine (x ++ ['\r']) = inputLine x := by
  simp [inputLine]

theorem inputLine_append_of_ne {c : Char} (h : c ≠ '\r') (x : List Char) :
    inputLine (x ++ [c]) = x ++ [c] := by
  simp [inputLine, h]

theorem inputLine_append_replicate (h : line.getLast? ≠ some '\r') (k : Nat) :
    inputLine (line ++ .replicate k '\r') = line := by
  induction k with
  | zero =>
    rw [List.replicate_zero, List.append_nil]
    rcases List.eq_nil_or_concat' line with rfl | ⟨front, c, rfl⟩
    · rfl
    · exact inputLine_append_of_ne (by simpa using h) front
  | succ k ih => rw [List.replicate_succ', ← List.append_assoc, inputLine_append_return, ih]

/-- The carriage returns at the end of a text come after a line. -/
theorem exists_eq_append_replicate (x : List Char) :
    ∃ line k, x = line ++ .replicate k '\r' ∧ line.getLast? ≠ some '\r' := by
  induction x using List.reverseRecOn with
  | nil => exact ⟨[], 0, rfl, nofun⟩
  | append_singleton x c ih =>
    by_cases hc : c = '\r'
    · obtain ⟨line, k, rfl, hlast⟩ := ih
      exact ⟨line, k + 1, by rw [hc, List.replicate_succ', List.append_assoc], hlast⟩
    · exact ⟨x ++ [c], 0, by simp, by simpa using hc⟩

theorem inputLine_chomp (x : List Char) : inputLine (Text.chomp x) = inputLine x := by
  rw [Text.chomp]
  split
  · next h =>
    have hx : x = x.dropLast ++ ['\r'] := (List.dropLast_append_getLast? _ h).symm
    rw [hx, inputLine_append_return, ← hx]
  · rfl

namespace Run

variable {cs front rest l : List Char} {ls ls' : List (List Char)}

/-! ### Lines of an input -/

/-- The lines of a text, without line breaks and the carriage returns before them. -/
inductive Typed : List Char → List (List Char) → Prop where
  /-- Nothing is left. -/
  | nil : Typed [] []
  /-- The last line has no line break. -/
  | last {l : List Char} (k : Nat) (hbreak : '\n' ∉ l) (hreturn : l.getLast? ≠ some '\r')
      (hne : l ++ .replicate k '\r' ≠ []) : Typed (l ++ .replicate k '\r') [l]
  /-- A line ends at its line break. -/
  | line {l rest : List Char} {ls : List (List Char)} (k : Nat) (hbreak : '\n' ∉ l)
      (hreturn : l.getLast? ≠ some '\r') (h : Typed rest ls) :
      Typed (l ++ .replicate k '\r' ++ '\n' :: rest) (l :: ls)

theorem not_mem_append_replicate (h : '\n' ∉ l) (k : Nat) : '\n' ∉ l ++ .replicate k '\r' := by
  simp [h, List.mem_replicate]

theorem Typed.eq (h : Typed cs ls) : ls = (Text.lines cs).map inputLine := by
  induction h with
  | nil => rfl
  | last k hbreak hreturn hne =>
    rw [Text.lines_of_not_mem (not_mem_append_replicate hbreak k) hne, List.map_singleton,
      inputLine_append_replicate hreturn]
  | line k hbreak hreturn _ ih =>
    rw [Text.lines_append (not_mem_append_replicate hbreak k), List.map_cons, inputLine_chomp,
      inputLine_append_replicate hreturn, ih]

theorem typed_lines (cs : List Char) : Typed cs ((Text.lines cs).map inputLine) := by
  induction cs using line_induction with
  | last x hbreak =>
    by_cases hne : x = []
    · rw [hne]
      exact .nil
    · obtain ⟨l, k, rfl, hreturn⟩ := exists_eq_append_replicate x
      rw [Text.lines_of_not_mem hbreak hne, List.map_singleton, inputLine_append_replicate hreturn]
      exact .last k (fun h => hbreak (List.mem_append_left _ h)) hreturn hne
  | line x rest hbreak ih =>
    obtain ⟨l, k, rfl, hreturn⟩ := exists_eq_append_replicate x
    rw [Text.lines_append hbreak, List.map_cons, inputLine_chomp, inputLine_append_replicate hreturn]
    exact .line k (fun h => hbreak (List.mem_append_left _ h)) hreturn ih

/-- What is typed are the lines that the program reads. -/
theorem typed_iff : Typed cs ls ↔ ls = (Text.lines cs).map inputLine :=
  ⟨Typed.eq, fun h => h ▸ typed_lines cs⟩

/-- Lines before a line break and after it. -/
theorem Typed.append (hfront : Typed front ls) (hend : front = [] ∨ front.getLast? = some '\n')
    (hrest : Typed rest ls') : Typed (front ++ rest) (ls ++ ls') := by
  induction hfront with
  | nil => exact hrest
  | @last l k hbreak hreturn hne =>
    have hlast : '\n' ∈ l ++ .replicate k '\r' := List.mem_of_getLast? (hend.resolve_left hne)
    exact absurd hlast (not_mem_append_replicate hbreak k)
  | @line l tail ls k hbreak hreturn h ih =>
    rw [List.append_assoc, List.cons_append, List.cons_append]
    refine .line k hbreak hreturn (ih ?_)
    rcases List.eq_nil_or_concat' tail with rfl | ⟨tail, c, rfl⟩
    · exact .inl rfl
    · have hlast := hend.resolve_left (by simp)
      rw [← List.cons_append, ← List.append_assoc, List.getLast?_concat] at hlast
      exact .inr (by rw [List.getLast?_concat, hlast])

/-! ### Pieces of a conversation -/

/-- The lines up to the first that ends the conversation. -/
def asked (ls : List (List Char)) : List (List Char) := ls.takeWhile (· ≠ ['q'])

/-- The reply to a line: the listing to `p`, the verdict to any other. -/
def reply (a : Automaton) (l : List Char) : String :=
  if l = ['p'] then a.machine.text ++ "\n" else verdict a (.ofList l)

theorem asked_quit (ls : List (List Char)) : asked (['q'] :: ls) = [] := by simp [asked]

theorem asked_cons (h : l ≠ ['q']) (ls : List (List Char)) : asked (l :: ls) = l :: asked ls := by
  simp [asked, h]

theorem asked_append_quit (ls ls' : List (List Char)) : asked (ls ++ ['q'] :: ls') = asked ls := by
  induction ls with
  | nil => exact asked_quit ls'
  | cons l ls ih =>
    by_cases h : l = ['q']
    · rw [List.cons_append, h, asked_quit, asked_quit]
    · rw [List.cons_append, asked_cons h, asked_cons h, ih]

theorem answer_quit (a : Automaton) : answer a ['q'] = none := if_pos rfl

theorem answer_of_ne (a : Automaton) (h : l ≠ ['q']) : answer a l = some (reply a l) := by
  rw [answer, reply, if_neg h]
  split <;> rfl

theorem reply_ne_prompt (a : Automaton) (l : List Char) : reply a l ≠ prompt := by
  obtain ⟨s, hs⟩ : ∃ s, reply a l = s ++ "\n" := by
    unfold reply
    split
    · exact ⟨_, rfl⟩
    · exact ⟨_, rfl⟩
  intro h
  have hlast := congrArg (·.toList.getLast?) (hs.symm.trans h)
  simp [prompt] at hlast

/-- The pieces that a conversation prints, given the lines that are read. -/
theorem exchange_eq (a : Automaton) (lines : List (List Char)) :
    exchange prompt (answer a) lines =
      (asked (lines.map inputLine)).flatMap (fun l => [prompt, reply a l]) ++ [prompt] := by
  induction lines with
  | nil => rfl
  | cons line lines ih =>
    rw [exchange, List.map_cons]
    by_cases hquit : inputLine line = ['q']
    · rw [hquit, answer_quit, asked_quit]
      rfl
    · rw [answer_of_ne a hquit, asked_cons hquit, ih]
      rfl

theorem join_pieces (a : Automaton) (ls : List (List Char)) :
    String.join (ls.flatMap (fun l => [prompt, reply a l]) ++ [prompt]) =
      .join (ls.map fun l => prompt ++ reply a l) ++ prompt := by
  induction ls with
  | nil => simp
  | cons l ls ih =>
    rw [List.flatMap_cons, List.append_assoc, String.join_append, ih, List.map_cons,
      String.join_cons, ← String.append_assoc]
    simp

/-- A reply is never taken for a prompt. -/
theorem count_prompt (a : Automaton) (ls : List (List Char)) :
    (ls.flatMap (fun l => [prompt, reply a l]) ++ [prompt]).count prompt = ls.length + 1 := by
  induction ls with
  | nil => rfl
  | cons l ls ih =>
    rw [List.flatMap_cons, List.append_assoc, List.count_append, ih, List.count_cons_self,
      List.count_cons_of_ne (reply_ne_prompt a l), List.count_nil, List.length_cons, Nat.add_comm]

theorem transcript_of_typed (h : Typed cs ls) (a : Automaton) :
    transcript prompt (answer a) (Text.lines cs) =
      .join ((asked ls).map fun l => prompt ++ reply a l) ++ prompt := by
  rw [transcript, exchange_eq, ← typed_iff.mp h, join_pieces]

/-! ### The whole conversation -/

/-- A run on the same source that does nothing with the automaton. -/
def silent (o : Options) : Options :=
  { o with
    word := none
    check := false
    interactive := false
    listing := false
    drawing := none
    picture := none }

theorem run_of_printed {o : Options} {w : World} {a : Automaton} {text : String}
    (h : Loads w o a) (hcheck : o.check = false) (hpicture : o.picture = none)
    (hdrawing : o.drawing = none) (hprinted : printed w o a = text) :
    (run World.host o).run.run w = (.ok (), w.print text) := by
  have hdrawn : drawn w o a = .ok w := by rw [drawn, hdrawing]
  rw [run_of_drawn h hcheck hpicture hdrawn, hprinted]

/-- **The whole conversation.** Every input has its lines. Whatever the automaton, a conversation
puts out a prompt and a reply for each line before the first `q`, then one more prompt, and does
nothing else; so there is one prompt more than there are lines with a reply, and what follows a line
`q` is without effect. If the automaton is loaded, this is what a run puts out that is asked for a
conversation only, and the replies are what runs put out that are asked for the listing only, or for
the word on the line only. -/
theorem conversation_of_typed :
    (∀ text, ∃! ls, Typed text ls) ∧
    (∀ (a : Automaton) (w : World) (ls : List (List Char)), Typed w.input.toList ls →
      (World.host.converse prompt (answer a)).run w =
        ((), { w with output := w.output ++
          (.join ((asked ls).map fun l => prompt ++ reply a l) ++ prompt) }) ∧
      (exchange prompt (answer a) (Text.lines w.input.toList)).count prompt =
        (asked ls).length + 1) ∧
    (∀ (a : Automaton) (front rest : List Char) (k : Nat),
      front = [] ∨ front.getLast? = some '\n' →
      transcript prompt (answer a)
          (Text.lines (front ++ (['q'] ++ .replicate k '\r' ++ '\n' :: rest))) =
        transcript prompt (answer a) (Text.lines (front ++ ['q']))) ∧
    ∀ (o : Options) (w : World) (a : Automaton), Loads w o a →
      (∀ ls, Typed w.input.toList ls →
        (run World.host { silent o with interactive := true }).run.run w =
          (.ok (), { w with output := w.output ++
            (.join ((asked ls).map fun l => prompt ++ reply a l) ++ prompt) })) ∧
      (run World.host { silent o with listing := true }).run.run w =
        (.ok (), { w with output := w.output ++ reply a ['p'] }) ∧
      ∀ l, l ≠ ['p'] → (run World.host { silent o with word := some (.ofList l) }).run.run w =
        (.ok (), { w with output := w.output ++ reply a l }) := by
  refine ⟨fun text => ⟨_, typed_lines text, fun ls h => h.eq⟩, fun a w ls h => ⟨?_, ?_⟩,
    fun a front rest k hend => ?_, fun o w a h => ⟨fun ls hls => ?_, ?_, fun l hl => ?_⟩⟩
  · rw [← transcript_of_typed h]
    rfl
  · rw [exchange_eq, ← typed_iff.mp h, count_prompt]
  · have hfront := typed_lines front
    have hquit : Typed ['q'] [['q']] :=
      Typed.last (l := ['q']) 0 (by decide) (by decide) (by decide)
    have hline : Typed (['q'] ++ .replicate k '\r' ++ '\n' :: rest) _ :=
      Typed.line (l := ['q']) k (by decide) (by decide) (typed_lines rest)
    rw [transcript_of_typed (hfront.append hend hquit), asked_append_quit,
      transcript_of_typed (hfront.append hend hline), asked_append_quit]
  · have hprinted : printed w { silent o with interactive := true } a =
        .join ((asked ls).map fun l => prompt ++ reply a l) ++ prompt := by
      rw [← transcript_of_typed hls]
      simp [printed, listed, judged, conversed, silent]
    exact run_of_printed (o := { silent o with interactive := true }) h rfl rfl rfl hprinted
  · have hprinted : printed w { silent o with listing := true } a = reply a ['p'] := by
      simp [printed, listed, judged, conversed, silent, reply]
    exact run_of_printed (o := { silent o with listing := true }) h rfl rfl rfl hprinted
  · have hprinted : printed w { silent o with word := some (.ofList l) } a = reply a l := by
      simp [printed, listed, judged, conversed, silent, reply, hl]
    exact run_of_printed (o := { silent o with word := some (.ofList l) }) h rfl rfl rfl hprinted

/-- One letter. -/
def oneLetter : Automaton where
  kind := .enfa
  machine :=
    { graph := ⟨#[⟨"0", .ofList [(.letter 'a', 1)]⟩, ⟨"1", ∅⟩]⟩
      initial := [0]
      finals := [1]
      alphabet := .ofList ['a'] }

/-- A run that loads one letter. -/
def oneLetterOptions : Options where
  source := .pattern "a"
  kind := some .enfa
  word := none
  check := false
  interactive := true
  listing := false
  drawing := none
  picture := none

/-- A word, an empty line, a request for the listing, and a line behind the end of the
conversation. -/
def fiveLines : World := .ofFiles [] "a\r\n\np\nq\r\nb\n"

theorem conversation_of_typed_oneLetter :
    (run World.host oneLetterOptions).run.run fiveLines = (.ok (), { fiveLines with output :=
      "(q: quit)> Word: a, Accepted: true\n(q: quit)> Word: ε, Accepted: false\n(q: quit)> " ++
        oneLetter.machine.text ++ "\n(q: quit)> " }) ∧
    (exchange prompt (answer oneLetter) (Text.lines fiveLines.input.toList)).count prompt = 4 ∧
    transcript prompt (answer oneLetter) (Text.lines "a\r\n\np\nq\r\nb\n".toList) =
      transcript prompt (answer oneLetter) (Text.lines "a\r\n\np\nq".toList) ∧
    (run World.host { silent oneLetterOptions with word := some "a" }).run.run fiveLines =
      (.ok (), { fiveLines with output := "Word: a, Accepted: true\n" }) := by
  have hloads : Loads fiveLines oneLetterOptions oneLetter := by
    show Automaton.ofPatternText "a" (some .enfa) = .ok oneLetter
    decide +kernel
  have htyped : Typed fiveLines.input.toList [['a'], [], ['p'], ['q'], ['b']] :=
    typed_iff.mpr (by decide)
  obtain ⟨-, hconverse, hquit, hruns⟩ := conversation_of_typed
  obtain ⟨-, hcount⟩ := hconverse oneLetter fiveLines _ htyped
  obtain ⟨hinteractive, -, hword⟩ := hruns oneLetterOptions fiveLines oneLetter hloads
  have hanswers : fiveLines.output ++ (String.join ((asked [['a'], [], ['p'], ['q'], ['b']]).map
      fun l => prompt ++ reply oneLetter l) ++ prompt) =
        "(q: quit)> Word: a, Accepted: true\n(q: quit)> Word: ε, Accepted: false\n(q: quit)> " ++
          oneLetter.machine.text ++ "\n(q: quit)> " := by
    decide +kernel
  have hverdict : fiveLines.output ++ reply oneLetter ['a'] = "Word: a, Accepted: true\n" := by
    decide +kernel
  refine ⟨?_, hcount, hquit oneLetter "a\r\n\np\n".toList "b\n".toList 1 (by decide), ?_⟩
  · rw [← hanswers]
    exact hinteractive _ htyped
  · rw [← hverdict]
    exact hword ['a'] (by decide)

end Run

end CommandLine

end Acceptor
