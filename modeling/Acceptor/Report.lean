import Acceptor.Loading

/-!
# Reports

A report says what cannot be loaded and where. The origin of the text and the position come before
the message; below it stand the line of the text and a caret under the column.
-/

namespace Acceptor

namespace LoadError

/-- The name of the text of a pattern that comes from the command line. -/
def patternOrigin : String := "<regex>"

/-- The place that shows an error. A pattern is taken for a text of one line. -/
def position : LoadError → Option Position
  | pattern e => some ⟨1, e.index + 1⟩
  | description e => e.position
  | machine _ | file _ _ => none

/-- What comes before the message. An error about a file names its path itself. -/
def heading (e : LoadError) (origin : String) : String :=
  match e, e.position with
  | _, some p => s!"{origin}:{p.text}: "
  | file _ _, none => ""
  | _, none => s!"{origin}: "

/-- The line of a text at a position, empty past the end, and a caret under the column. -/
def excerpt (text : String) (p : Position) : String :=
  let line := ((Text.lines text.toList)[p.line - 1]?).getD []
  .ofList line ++ "\n" ++ .ofList (List.replicate (p.column - 1) ' ') ++ "^\n"

/-- The report of an error in a text, empty if there is no complaint. -/
def report (e : LoadError) (text origin : String) : String :=
  match e.message? with
  | some message => e.heading origin ++ message ++ "\n" ++ (e.position.elim "" (excerpt text))
  | none => ""

/-- The bound on the length of a text. -/
def lengthBound : Nat := UInt64.size / 2

/-- The report of an error in a text, if there is a complaint and the line of the caret stays below
the bound. -/
def report? (e : LoadError) (text origin : String) : Option String :=
  if e.message?.isSome ∧ e.position.all (·.column ≤ lengthBound) then some (e.report text origin)
  else none

end LoadError

end Acceptor
