/-!
# Kinds of automata

An automaton is deterministic, nondeterministic, or nondeterministic with empty moves.
-/

namespace Acceptor

/-- The three kinds of finite automata. -/
inductive Kind where
  /-- Deterministic. -/
  | dfa
  /-- Nondeterministic, without empty moves. -/
  | nfa
  /-- Nondeterministic, empty moves allowed. -/
  | enfa
  deriving DecidableEq, Inhabited

/-- A text that names no kind. -/
structure UnknownKind where
  /-- The text. -/
  text : String
  deriving DecidableEq

namespace UnknownKind

/-- The complaint about a text that names no kind. -/
def message (e : UnknownKind) : String :=
  s!"Illegal automaton type '{e.text}': type has to be one of dfa, nfa, enfa"

end UnknownKind

namespace Kind

/-- The name of a kind. -/
def text : Kind → String
  | dfa => "dfa"
  | nfa => "nfa"
  | enfa => "enfa"

/-- The kind of a name. -/
def ofText (s : String) : Except UnknownKind Kind :=
  if s = "dfa" then .ok dfa
  else if s = "nfa" then .ok nfa
  else if s = "enfa" then .ok enfa
  else .error ⟨s⟩

@[simp] theorem ofText_text (k : Kind) : ofText k.text = .ok k := by cases k <;> rfl

theorem ofText_eq_ok {s : String} {k : Kind} : ofText s = .ok k ↔ s = k.text := by
  refine ⟨fun h => ?_, fun h => h ▸ ofText_text k⟩
  grind [ofText, text]

end Kind

end Acceptor
