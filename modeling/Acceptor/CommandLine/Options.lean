import Acceptor.CommandLine.Arguments
import Acceptor.Kind

/-!
# Options

What a run of the program is asked to do: where the automaton comes from, the kind it should have,
and the actions to take with it. A description takes precedence over a pattern, and there has to be
a source and an action.
-/

namespace Acceptor

namespace CommandLine

/-- Where an automaton comes from. -/
inductive Source where
  /-- The file at a path. -/
  | file (path : String)
  /-- A pattern. -/
  | pattern (text : String)
  deriving DecidableEq

namespace Source

/-- The name of a source: the path or the pattern. -/
def name : Source → String
  | file path => path
  | pattern text => text

end Source

/-- What a run is asked to do. -/
structure Options where
  /-- Where the automaton comes from. -/
  source : Source
  /-- The kind it should have. -/
  kind : Option Kind
  /-- The word to read. -/
  word : Option String
  /-- Only check that the automaton loads. -/
  check : Bool
  /-- Read words from the input. -/
  interactive : Bool
  /-- Print the listing. -/
  listing : Bool
  /-- The file to write the drawing to. -/
  drawing : Option String
  /-- The file to render the drawing to. -/
  picture : Option String
  deriving DecidableEq

/-- Why options are refused. -/
inductive OptionsError where
  /-- There is no source. -/
  | noSource
  /-- The text for the kind names none. -/
  | unknownKind (e : UnknownKind)
  /-- There is no action. -/
  | noAction
  deriving DecidableEq

namespace OptionsError

/-- The complaint about options. -/
def message : OptionsError → String
  | noSource => "No automaton source provided! See --help."
  | unknownKind e => e.message
  | noAction => "No word provided and not in interactive mode!"

end OptionsError

namespace Options

/-- Whether there is something to do with the automaton. -/
def hasAction (o : Options) : Bool :=
  o.word.isSome || o.check || o.interactive || o.listing || o.drawing.isSome || o.picture.isSome

/-- The source that the arguments give. -/
def source? (u : Uses) : Except OptionsError Source :=
  match u.value? .path, u.value? .regex with
  | some path, _ => .ok (.file path)
  | none, some text => .ok (.pattern text)
  | none, none => .error .noSource

/-- The kind that the arguments ask for. -/
def kind? (u : Uses) : Except OptionsError (Option Kind) :=
  match u.value? .kind with
  | some text => ((Kind.ofText text).map some).mapError .unknownKind
  | none => .ok none

/-- The options that the arguments give. -/
def ofUses (u : Uses) : Except OptionsError Options := do
  let source ← source? u
  let kind ← kind? u
  let o : Options :=
    { source, kind
      word := u.value? .word
      check := u.has .check
      interactive := u.has .interactive
      listing := u.has .repr
      drawing := u.value? .dot
      picture := u.value? .png }
  if o.hasAction then return o else throw .noAction

end Options

end CommandLine

end Acceptor
