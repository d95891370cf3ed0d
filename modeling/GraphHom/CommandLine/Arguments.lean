import GraphHom.Matching.Matcher

/-!
# Command line arguments

There are two commands. `match FILE PATTERN HOST` matches one graph of a file in another, `typed
FILE PATTERN HOST` one typed graph in another. The first takes options, anywhere after its name and
before a `--`, each at most once; an option's value stands in the next argument or after an equals
sign. An option whose value is left out, because the arguments end there or another option or `--`
follows, counts towards that limit and otherwise changes nothing. `help` may name one command.

Arguments are read from left to right; a request for help or for the version takes effect as soon as
it is met. What else is wrong with the arguments counts as wrong usage.
-/

namespace GraphHom

namespace CommandLine

/-- Which matches are reported. -/
inductive Mode where
  /-- Every match. -/
  | every
  /-- The first match. -/
  | first
  /-- Only whether there is a match. -/
  | existence
deriving DecidableEq

/-- The text by which a mode is chosen. -/
def Mode.text : Mode → String
  | every => "all"
  | first => "one"
  | existence => "exists"

/-- The mode chosen by a text. -/
def Mode.ofText? (text : String) : Option Mode := [every, first, existence].find? (·.text = text)

/-- What the program is asked to do. -/
inductive Command where
  /-- Match one graph in another. -/
  | untyped (file pattern host : String) (injective : Bool) (config : MatcherConfig) (mode : Mode)
  /-- Match one typed graph in another. -/
  | typed (file pattern host : String)
deriving DecidableEq

/-- The file a command reads. -/
def Command.file : Command → String
  | untyped file _ _ _ _ _ => file
  | typed file _ _ => file

/-- Why there is nothing to do. -/
inductive Stop where
  /-- The arguments make no command. -/
  | wrongUsage
  /-- Help is asked for. -/
  | help
  /-- The version is asked for, of the program or of one of its commands. -/
  | version (command : Option String)
deriving DecidableEq

/-! ## Scanning -/

/-- What a command accepts besides three positional arguments. -/
structure Accepted where
  /-- The name of the command. -/
  command : String
  /-- The options without a value. -/
  flags : List String
  /-- The options with a value. -/
  settings : List String

/-- The arguments of a command, sorted out. -/
structure Scanned where
  /-- The positional arguments in order. -/
  positional : List String
  /-- The options without a value, as often as they occur. -/
  flags : List String
  /-- The options with a value, as often as they occur; the value may have been left out. -/
  settings : List (String × Option String)

/-- The number of positional arguments of every command. -/
def positionalCount : Nat := 3

/-- An argument that starts with two hyphens, as its name without hyphens and its value, if it has
one. -/
def longOption? (arg : String) : Option (List Char × Option (List Char)) :=
  match arg.toList with
  | '-' :: '-' :: rest =>
    let body := rest.dropWhile (· = '-')
    let name := body.takeWhile (· ≠ '=')
    match body.dropWhile (· ≠ '=') with
    | [] => some (name, none)
    | value => some (name, some (value.dropWhile (· = '=')))
  | _ => none

/-- An argument that starts with one hyphen and is longer than that, as its first letter. -/
def shortOption? (arg : String) : Option Char :=
  match arg.toList with
  | '-' :: c :: _ => if c = '-' then none else some c
  | _ => none

/-- Sorts out an option with two hyphens. The result says whether its value is still to come. -/
def scanLong (a : Accepted) (s : Scanned) (name : String) (value : Option String) :
    Except Stop (Scanned × Bool) :=
  if name ∈ a.settings then
    .ok ({ s with settings := s.settings ++ [(name, value)] }, value.isNone)
  else if name ∈ a.flags then .ok ({ s with flags := s.flags ++ [name] }, false)
  else if name = "help" then .error .help
  else if name = "version" then .error (.version (some a.command))
  else .error .wrongUsage

/-- What an option with one hyphen asks for. -/
def shortStop (command : Option String) (letter : Char) : Stop :=
  if letter = 'h' then .help
  else if letter = 'V' then .version command
  else .wrongUsage

/-- Adds a positional argument. -/
def addPositional (s : Scanned) (arg : String) : Except Stop Scanned :=
  if s.positional.length < positionalCount then
    .ok { s with positional := s.positional ++ [arg] }
  else .error .wrongUsage

/-- Gives a value to the option that came last. -/
def setLast (s : Scanned) (value : String) : Scanned :=
  match s.settings.getLast? with
  | some (name, _) => { s with settings := s.settings.dropLast ++ [(name, some value)] }
  | none => s

/-- Sorts out the arguments of a command; `pending` says that the last option still wants its
value. -/
def scan (a : Accepted) (s : Scanned) (pending : Bool) : List String → Except Stop Scanned
  | [] => .ok s
  | arg :: rest =>
    if arg = "--" then rest.foldlM addPositional s
    else
      match longOption? arg, shortOption? arg with
      | some (name, value), _ => do
        let (s, pending) ← scanLong a s (String.ofList name) (value.map String.ofList)
        scan a s pending rest
      | none, some letter => .error (shortStop (some a.command) letter)
      | none, none =>
        if pending then scan a (setLast s arg) false rest
        else do
          let s ← addPositional s arg
          scan a s false rest

/-! ## Commands -/

/-- The value of an option, or what it is by default when the option or its value is left out; an
option that occurs twice or whose value is not a possible one is refused. -/
def setting {α : Type} (s : Scanned) (name : String) (read : String → Option α) (default : α) :
    Except Stop α :=
  match (s.settings.filter (·.1 = name)).map (·.2) with
  | [] | [none] => .ok default
  | [some value] => (read value).elim (.error .wrongUsage) .ok
  | _ => .error .wrongUsage

/-- Whether an option without a value is given; twice is refused. -/
def flag (s : Scanned) (name : String) : Except Stop Bool :=
  match s.flags.filter (· = name) with
  | [] => .ok false
  | [_] => .ok true
  | _ => .error .wrongUsage

/-- What `match` accepts. -/
def acceptedUntyped : Accepted := ⟨"match", ["injective", "no-state-hashing"], ["engine", "mode"]⟩

/-- What `typed` accepts. -/
def acceptedTyped : Accepted := ⟨"typed", [], []⟩

/-- The command that the arguments after `match` make. -/
def untypedCommand (args : List String) : Except Stop Command := do
  let s ← scan acceptedUntyped ⟨[], [], []⟩ false args
  let injective ← flag s "injective"
  let noStateHashing ← flag s "no-state-hashing"
  let engine ← setting s "engine" Engine.ofText? .constraints
  let mode ← setting s "mode" Mode.ofText? .every
  match s.positional with
  | [file, pattern, host] =>
    return .untyped file pattern host injective ⟨engine, !noStateHashing⟩ mode
  | _ => throw .wrongUsage

/-- The command that the arguments after `typed` make. -/
def typedCommand (args : List String) : Except Stop Command := do
  let s ← scan acceptedTyped ⟨[], [], []⟩ false args
  match s.positional with
  | [file, pattern, host] => return .typed file pattern host
  | _ => throw .wrongUsage

/-- What the arguments after `help` ask for: nothing may stand there but the name of one command,
`help` included. -/
def helpStop : List String → Stop
  | [] => .help
  | [command] => if command ∈ ["match", "typed", "help"] then .help else .wrongUsage
  | _ => .wrongUsage

/-- The command that the arguments of the program make. -/
def Command.ofArguments : List String → Except Stop Command
  | [] => .error .wrongUsage
  | arg :: rest =>
    match longOption? arg, shortOption? arg with
    | some (name, _), _ =>
      if name = "help".toList then .error .help
      else if name = "version".toList then .error (.version none)
      else .error .wrongUsage
    | none, some letter => .error (shortStop none letter)
    | none, none =>
      if arg = "match" then untypedCommand rest
      else if arg = "typed" then typedCommand rest
      else if arg = "help" then .error (helpStop rest)
      else .error .wrongUsage

end CommandLine

end GraphHom
