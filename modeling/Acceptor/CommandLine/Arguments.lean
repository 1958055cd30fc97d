/-!
# Arguments

The grammar of the arguments: options that take a value, flags that do not, and the two requests for
help and for the version. An option's value is the rest of its argument or the next argument, and
flags can be grouped. Every option and flag may be used once.

## Implementation notes

Arguments are read from left to right. An option without a value waits for the next argument, which
is its value unless it begins with a dash; a lone dash is a value. What is wrong with the uses as a
whole, a value that is missing or a second use, is found after the last argument.
-/

namespace Acceptor

namespace CommandLine

/-- The options and flags. -/
inductive Key where
  /-- The description to load. -/
  | path
  /-- The pattern to load. -/
  | regex
  /-- The word to read. -/
  | word
  /-- The kind to convert to. -/
  | kind
  /-- The file for the drawing. -/
  | dot
  /-- The file for the rendered drawing. -/
  | png
  /-- Only check the source. -/
  | check
  /-- Read words from the input. -/
  | interactive
  /-- Print the listing. -/
  | repr
  /-- Ask for help. -/
  | help
  /-- Ask for the version. -/
  | version
  deriving DecidableEq

namespace Key

/-- All options and flags. -/
def all : List Key :=
  [path, regex, word, kind, dot, png, check, interactive, repr, help, version]

/-- The letter of an option or flag. -/
def short : Key → Char
  | path => 'p'
  | regex => 'e'
  | word => 'w'
  | kind => 't'
  | dot => 'd'
  | png => 'g'
  | check => 'c'
  | interactive => 'i'
  | repr => 'r'
  | help => 'h'
  | version => 'V'

/-- The name of an option or flag. -/
def long : Key → String
  | path => "path"
  | regex => "regex"
  | word => "word"
  | kind => "type"
  | dot => "dot"
  | png => "png"
  | check => "check"
  | interactive => "interactive"
  | repr => "repr"
  | help => "help"
  | version => "version"

/-- Whether a value belongs to the key. -/
def takesValue : Key → Bool
  | path | regex | word | kind | dot | png => true
  | check | interactive | repr | help | version => false

/-- The key of a letter. -/
def ofShort? (c : Char) : Option Key := all.find? (·.short == c)

/-- The key of a name. -/
def ofLong? (s : List Char) : Option Key := all.find? fun k => k.long.toList == s

end Key

/-- Why arguments are refused. -/
inductive UsageError where
  /-- An argument is no option, flag or value. -/
  | unknownArgument
  /-- An option has no value. -/
  | emptyValue
  /-- An option or flag is used again. -/
  | multipleUsage
  /-- Help is asked for. -/
  | helpWanted
  /-- The version is asked for. -/
  | versionWanted
  deriving DecidableEq

/-- The uses of options and flags read so far. -/
structure Uses where
  /-- The options and flags used, each as often as it is used. -/
  keys : List Key
  /-- The values given. -/
  values : List (Key × String)
  /-- The option that waits for its value. -/
  waiting : Option Key
  /-- Whether the options have been declared to be at an end. -/
  ended : Bool
  deriving DecidableEq

namespace Uses

/-- Nothing is used. -/
def empty : Uses := ⟨[], [], none, false⟩

/-- The value given to an option. -/
def value? (u : Uses) (k : Key) : Option String := u.values.lookup k

/-- Whether an option or flag is used. -/
def has (u : Uses) (k : Key) : Bool := u.keys.contains k

/-- One more use of an option, with its value or waiting for it. The value may follow after
equality signs. -/
def useOption (u : Uses) (k : Key) : Option (List Char) → Uses
  | none => { u with keys := k :: u.keys, waiting := k }
  | some v =>
    { u with
      keys := k :: u.keys
      values := u.values ++ [(k, .ofList (v.dropWhile (· == '=')))]
      waiting := none }

/-- One more use of a flag. The requests for help and for the version are answered at once. -/
def useFlag (u : Uses) : Key → Except UsageError Uses
  | .help => .error .helpWanted
  | .version => .error .versionWanted
  | k => .ok { u with keys := k :: u.keys, waiting := none }

/-- The uses in a group of letters. An option takes the rest of the group for its value. -/
def useLetters (u : Uses) : List Char → Except UsageError Uses
  | [] => .ok u
  | c :: cs =>
    match Key.ofShort? c with
    | none => .error .unknownArgument
    | some k =>
      if k.takesValue then .ok (u.useOption k (if cs = [] then none else some cs))
      else (u.useFlag k).bind fun u => u.useLetters cs

/-- The use of a name, with what follows after the first equality sign. -/
def useName (u : Uses) (cs : List Char) : Except UsageError Uses :=
  let name := cs.takeWhile (· != '=')
  match Key.ofLong? name with
  | none => .error .unknownArgument
  | some k =>
    if k.takesValue then
      .ok (u.useOption k (if name = cs then none else some (cs.drop name.length)))
    else u.useFlag k

/-- The uses after one more argument. -/
def read (u : Uses) (arg : List Char) : Except UsageError Uses :=
  if u.ended then .error .unknownArgument
  else
    match arg, u.waiting with
    | ['-', '-'], _ => .ok { u with ended := true }
    | '-' :: '-' :: cs, _ => u.useName (cs.dropWhile (· == '-'))
    | '-' :: c :: cs, _ => u.useLetters (c :: cs)
    | cs, some k => .ok { u with values := u.values ++ [(k, .ofList cs)], waiting := none }
    | _, none => .error .unknownArgument

/-- Whether an option is used without a value. -/
def lacksValue (u : Uses) : Bool := u.keys.any fun k => k.takesValue && (u.value? k).isNone

/-- Fails if a value is missing, else if something is used again. -/
def check (u : Uses) : Except UsageError Uses :=
  if u.lacksValue then .error .emptyValue
  else if ¬u.keys.Nodup then .error .multipleUsage
  else .ok u

/-- The uses in the arguments of a program. -/
def ofArguments (args : List String) : Except UsageError Uses := do
  let u ← args.foldlM (fun (u : Uses) arg => u.read arg.toList) .empty
  u.check

end Uses

end CommandLine

end Acceptor
