import GraphHom.Matching.Growth
import GraphHom.Matching.NameSupply
import GraphHom.Morphism.Pullback

/-!
# Matchers

A matcher finds the matches of a pattern graph in a host graph, all of them, the first one, or only
whether there is one. It works with one of two engines, which find the same matches, in orders of
their own: solving the constraint problem of the match, or growing matches edge by edge.

Typed graphs, that is morphisms into a common type graph, are matched through the pullback of the
two typings, always by solving a constraint problem.

A pattern without elements has no match.
-/

namespace GraphHom

/-- How a matcher finds its matches. -/
inductive Engine where
  /-- By solving a constraint problem. -/
  | constraints
  /-- By growing partial matches. -/
  | growth
deriving DecidableEq

namespace Engine

/-- The text by which an engine is chosen. -/
def text : Engine → String
  | constraints => "csp"
  | growth => "legacy"

/-- The engine chosen by a text. -/
def ofText? (text : String) : Option Engine := [constraints, growth].find? (·.text = text)

/-- The wording of the error that no engine is chosen by a text. -/
def unknownMessage (text : String) : String := s!"unknown engine {text}"

end Engine

/-- What can go wrong in matching. -/
inductive MatchError where
  /-- The constraint problem of the match is refused. -/
  | formulation (error : Problem.Error MatchVar)
  /-- A graph or a morphism is refused. -/
  | construction (error : BuildError)
deriving DecidableEq

/-- The choices one has with a matcher. -/
structure MatcherConfig where
  /-- How matches are found. -/
  engine : Engine
  /-- Whether the growth engine grows equal partial matches only once. -/
  stateHashing : Bool
deriving DecidableEq

/-- Solving constraint problems, and hashing when growing. -/
def MatcherConfig.default : MatcherConfig := ⟨.constraints, true⟩

namespace MatcherConfig

/-- The label pairs of all matches, in the order in which they are found. -/
def allPairs (c : MatcherConfig) (pattern host : Graph) (injective : Bool) :
    Except MatchError (List (List (Name × Name))) :=
  match c.engine with
  | .constraints =>
    match formulate pattern host injective with
    | .error e => .error (.formulation e)
    | .ok problem => .ok (problem.solveAll.map MatchProblem.labelPairs)
  | .growth => .ok ((growMatches pattern host injective c.stateHashing).map LabelMap.pairs)

/-- The label pairs of the first match. -/
def firstPairs (c : MatcherConfig) (pattern host : Graph) (injective : Bool) :
    Except MatchError (Option (List (Name × Name))) :=
  match c.engine with
  | .constraints =>
    match formulate pattern host injective with
    | .error e => .error (.formulation e)
    | .ok problem => .ok (problem.solveOne.map MatchProblem.labelPairs)
  | .growth => .ok ((growFirstMatch pattern host injective c.stateHashing).map LabelMap.pairs)

end MatcherConfig

/-- A matcher: its configuration, and the names it has left for each engine. -/
structure Matcher where
  /-- The configuration. -/
  config : MatcherConfig
  /-- The names for matches found by solving. -/
  solved : NameSupply
  /-- The names for matches that were grown. -/
  grown : NameSupply
deriving DecidableEq

namespace Matcher

/-- A matcher that has not named any match yet. -/
def new (config : MatcherConfig) : Matcher := ⟨config, .new "match", .new "match#"⟩

/-- The names for matches that the configured engine finds. -/
def names (m : Matcher) : NameSupply :=
  match m.config.engine with
  | .constraints => m.solved
  | .growth => m.grown

/-- The matcher with another supply of names for the configured engine. -/
def withNames (m : Matcher) (names : NameSupply) : Matcher :=
  match m.config.engine with
  | .constraints => { m with solved := names }
  | .growth => { m with grown := names }

/-- All matches of `pattern` in `host`. -/
def allMatches (m : Matcher) (pattern host : Graph) (injective : Bool) :
    Except MatchError (List Morphism) × Matcher :=
  if pattern.isEmpty then (.ok [], m)
  else
    match m.config.allPairs pattern host injective with
    | .error e => (.error e, m)
    | .ok pairs =>
      let (result, names) := m.names.morphisms pattern host pairs
      (result.mapError .construction, m.withNames names)

/-- The first match of `pattern` in `host`, if there is one. -/
def firstMatch (m : Matcher) (pattern host : Graph) (injective : Bool) :
    Except MatchError (Option Morphism) × Matcher :=
  if pattern.isEmpty then (.ok none, m)
  else
    match m.config.firstPairs pattern host injective with
    | .error e => (.error e, m)
    | .ok none => (.ok none, m)
    | .ok (some pairs) =>
      let (result, names) := m.names.morphism pattern host pairs
      ((result.mapError .construction).map some, m.withNames names)

/-- Whether `pattern` has a match in `host`. -/
def existsMatch (m : Matcher) (pattern host : Graph) (injective : Bool) : Except MatchError Bool :=
  if pattern.isEmpty then .ok false
  else (m.config.firstPairs pattern host injective).map Option.isSome

/-- All matches of a typed pattern in a typed host that agree with the typings. Graphs typed over
different type graphs have none. -/
def allTypedMatches (m : Matcher) (pattern host : Morphism) :
    Except MatchError (List Morphism) × Matcher :=
  if pattern.codomain ≠ host.codomain || pattern.domain.isEmpty then (.ok [], m)
  else
    match pattern.pullback host with
    | .error e => (.error (.construction e), m)
    | .ok span =>
      match formulateTyped span.first span.second false with
      | .error e => (.error (.formulation e), m)
      | .ok problem =>
        let (result, names) := m.solved.morphisms pattern.domain host.domain
          (problem.solveAll.map MatchProblem.labelPairs)
        (result.mapError .construction, { m with solved := names })

end Matcher

end GraphHom
