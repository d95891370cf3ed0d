import GraphHom.CommandLine.Arguments
import GraphHom.Document.Parse
import GraphHom.Text.Quoted

/-!
# Running commands

What the program writes and how it ends, as a function of its arguments and of the text of the file
that they name. Matches are written one to a line. Errors go to the second output and end the
program with code 1; those about the definitions of a file are written as terms, with the kind of
the error and the names it is about.
-/

namespace GraphHom

namespace CommandLine

/-- What a run of the program writes, and the code with which it ends. -/
structure Output where
  /-- The code: zero, unless something went wrong. -/
  code : UInt32
  /-- What is written as the result. -/
  stdout : String
  /-- What is written about errors. -/
  stderr : String
deriving DecidableEq

/-! ## Errors as terms -/

/-- A name as a term. -/
def nameTerm (name : Name) : String := "Name(" ++ quote name.text ++ ")"

/-- A kind with named parts as a term. -/
def recordTerm (kind : String) (fields : List (String × String)) : String :=
  kind ++ " \x7b " ++ ", ".intercalate (fields.map fun f => f.1 ++ ": " ++ f.2) ++ " \x7d"

/-- A triple as a term. -/
def tripleTerm (t : Triple) : String :=
  recordTerm "Triple"
    [("source", nameTerm t.source), ("label", nameTerm t.label), ("target", nameTerm t.target)]

/-- The reason why a graph or a morphism cannot be built as a term. -/
def buildErrorTerm : BuildError → String
  | .danglingEdge graph edge endpoint => recordTerm "DanglingEdge"
    [("graph", nameTerm graph), ("edge", nameTerm edge), ("endpoint", nameTerm endpoint)]
  | .duplicateLabel graph label => recordTerm "DuplicateLabel"
    [("graph", nameTerm graph), ("label", nameTerm label)]
  | .malformedTriple graph triple => recordTerm "MalformedTriple"
    [("graph", nameTerm graph), ("triple", tripleTerm triple)]
  | .unknownElement morphism label => recordTerm "UnknownElement"
    [("morphism", nameTerm morphism), ("label", nameTerm label)]
  | .conflictingImages morphism label => recordTerm "ConflictingImages"
    [("morphism", nameTerm morphism), ("label", nameTerm label)]
  | .notTotal morphism label => recordTerm "NotTotal"
    [("morphism", nameTerm morphism), ("label", nameTerm label)]
  | .unknownImage morphism label image => recordTerm "UnknownImage"
    [("morphism", nameTerm morphism), ("label", nameTerm label), ("image", nameTerm image)]
  | .kindMismatch morphism label => recordTerm "KindMismatch"
    [("morphism", nameTerm morphism), ("label", nameTerm label)]
  | .incidenceViolated morphism edge => recordTerm "IncidenceViolated"
    [("morphism", nameTerm morphism), ("edge", nameTerm edge)]
  | .codomainMismatch left right => recordTerm "CodomainMismatch"
    [("left", nameTerm left), ("right", nameTerm right)]

/-- The reason why a name stands for nothing as a term. -/
def lookupErrorTerm : Document.LookupError → String
  | .unknownGraph name => "UnknownGraph(" ++ nameTerm name ++ ")"
  | .unknownMorphism name => "UnknownMorphism(" ++ nameTerm name ++ ")"
  | .invalid error => "Graph(" ++ buildErrorTerm error ++ ")"

/-- A matching variable as a term. -/
def matchVarTerm : MatchVar → String
  | .node label => "Node(" ++ nameTerm label ++ ")"
  | .edge label => "Edge(" ++ nameTerm label ++ ")"

/-! ## Runs -/

/-- What goes wrong in a run. -/
inductive Failed where
  /-- The file cannot be read. -/
  | unreadable (file : String)
  /-- The file holds no document. -/
  | unparsable (error : ParseError Position)
  /-- A name stands for nothing. -/
  | unresolved (error : Document.LookupError)
  /-- Matching fails. -/
  | unmatched (error : MatchError)

/-- The report of what went wrong. -/
def Failed.report : Failed → String
  | unreadable file => "cannot read " ++ quote file
  | unparsable error => error.message
  | unresolved error => lookupErrorTerm error
  | unmatched (.construction error) => buildErrorTerm error
  | unmatched (.formulation error) => error.message matchVarTerm

/-- Some lines, each ended by a line feed. -/
def lines (items : List String) : String := String.join (items.map (· ++ "\n"))

/-- What a command writes, given the text of its file. -/
def Command.result (c : Command) (text : Option String) : Except Failed String := do
  let some text := text | throw (.unreadable c.file)
  let document ← (Document.parse text).mapError .unparsable
  match c with
  | .untyped _ pattern host injective config mode =>
    let pattern ← (document.graph ⟨pattern⟩).mapError .unresolved
    let host ← (document.graph ⟨host⟩).mapError .unresolved
    let matcher := Matcher.new config
    match mode with
    | .every =>
      let found ← (matcher.allMatches pattern host injective).1.mapError .unmatched
      return lines (found.map Morphism.text)
    | .first =>
      let found ← (matcher.firstMatch pattern host injective).1.mapError .unmatched
      return lines [found.elim "no match" Morphism.text]
    | .existence =>
      let found ← (matcher.existsMatch pattern host injective).mapError .unmatched
      return lines [toString found]
  | .typed _ pattern host =>
    let pattern ← (document.morphism ⟨pattern⟩).mapError .unresolved
    let host ← (document.morphism ⟨host⟩).mapError .unresolved
    let found ← ((Matcher.new .default).allTypedMatches pattern host).1.mapError .unmatched
    return lines (found.map Morphism.text)

/-- The run of a command, given the text of its file. -/
def Command.run (c : Command) (text : Option String) : Output :=
  match c.result text with
  | .ok out => ⟨0, out, ""⟩
  | .error failed => ⟨1, "", "Error: " ++ failed.report ++ "\n"⟩

/-- How the program is used. -/
def usage : String := lines [
  "morphmatch match FILE PATTERN HOST [--injective] [--engine csp|legacy] [--no-state-hashing]",
  "                 [--mode all|one|exists]",
  "morphmatch typed FILE TYPED_PATTERN TYPED_HOST"]

/-- The output when there is no command to run. A command has no version number of its own. -/
def Stop.output : Stop → Output
  | wrongUsage => ⟨1, "", usage⟩
  | help => ⟨0, usage, ""⟩
  | version none => ⟨0, lines ["morphmatch 0.0.0"], ""⟩
  | version (some command) => ⟨0, lines ["morphmatch-" ++ command ++ " "], ""⟩

end CommandLine

end GraphHom
