import Acceptor.CommandLine.Host
import Acceptor.CommandLine.Options
import Acceptor.Drawing
import Acceptor.Report

/-!
# Runs

A run loads the automaton and then takes the actions it is asked to take. A check does nothing but
load. Otherwise files are written before anything is printed, since writing can fail: then comes the
listing, the verdict on the word, and the conversation about the words of the input.

## Main results

* `Run.run`: the run on any host.
-/

namespace Acceptor

namespace CommandLine

namespace Run

variable {m : Type → Type} [Monad m]

/-- The text before each line of the input. -/
def prompt : String := "(q: quit)> "

/-- A word as it is shown: the empty one by its sign. -/
def shown (word : String) : String := if word.isEmpty then "ε" else word

/-- The line about a word. -/
def verdict (a : Automaton) (word : String) : String :=
  s!"Word: {shown word}, Accepted: {a.accepts word}\n"

/-- The answer to a line: none to `q`, the listing to `p`, the verdict to any other. -/
def answer (a : Automaton) (line : List Char) : Option String :=
  if line = ['q'] then none
  else if line = ['p'] then some (a.machine.text ++ "\n")
  else some (verdict a (.ofList line))

/-- The automaton of the description in a file, with a report as the error. -/
def loadFile (path : String) (bytes : Except FileError ByteArray) (kind : Option Kind) :
    Except String Automaton :=
  match fileText path bytes with
  | .error e => .error (e.report "" path)
  | .ok text => (Automaton.ofDescriptionText text kind).mapError (·.report text path)

/-- The automaton of a pattern, with a report as the error. -/
def loadPattern (text : String) (kind : Option Kind) : Except String Automaton :=
  (Automaton.ofPatternText text kind).mapError (·.report text LoadError.patternOrigin)

/-- Loads the automaton of a source. -/
def load (h : Host m) (o : Options) : ExceptT String m Automaton :=
  match o.source with
  | .file path => do
    let bytes ← h.read path
    ExceptT.mk (pure (loadFile path bytes o.kind))
  | .pattern text => ExceptT.mk (pure (loadPattern text o.kind))

/-- Takes an action on a file, with a complaint as the error. -/
def onFile (verb path : String) (act : m (Except FileError Unit)) : ExceptT String m Unit := do
  match ← act with
  | .ok () => return ()
  | .error e => throw s!"Can't {verb} {path}: {e.message}"

/-- Loads the automaton and takes the actions. -/
def run (h : Host m) (o : Options) : ExceptT String m Unit := do
  let a ← load h o
  if o.check then
    h.print s!"No errors found in \"{o.source.name}\".\n"
  else
    if let some path := o.drawing then onFile "write" path (h.write path a.machine.drawing)
    if let some path := o.picture then onFile "render" path (h.render path a.machine.drawing)
    if o.listing then h.print (a.machine.text ++ "\n")
    if let some word := o.word then h.print (verdict a word)
    if o.interactive then h.converse prompt (answer a)

end Run

end CommandLine

end Acceptor
