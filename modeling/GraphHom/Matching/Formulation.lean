import GraphHom.Constraint.Solver
import GraphHom.Morphism.Basic

/-!
# Matching as a constraint problem

A match of a pattern in a host is a solution of a constraint problem: one variable per pattern
element, with host elements of its kind as values, and two constraints per pattern edge, which tie
the ends of its value to the values of its ends. An injective match also has pairwise different
values for the nodes and for the edges.

`formulate` offers every host element of the right kind. `formulateTyped` offers only those that a
span relates to the pattern element.
-/

namespace GraphHom

/-- A matching variable, one for every pattern element. -/
inductive MatchVar where
  /-- The variable of a pattern node. -/
  | node (label : Name)
  /-- The variable of a pattern edge. -/
  | edge (label : Name)
deriving DecidableEq

/-- The label of the pattern element that a variable stands for. -/
def MatchVar.label : MatchVar → Name
  | node label => label
  | edge label => label

/-- One of the two ends of an edge. -/
inductive EdgeEnd where
  /-- Where the edge starts. -/
  | source
  /-- Where the edge ends. -/
  | target
deriving DecidableEq

/-- The name of an end of an edge. -/
def Triple.endName (t : Triple) : EdgeEnd → Name
  | .source => t.source
  | .target => t.target

/-- The condition that an end of the value of an edge variable is the value of a node variable. -/
structure Incidence where
  /-- The variable of the edge. -/
  edge : MatchVar
  /-- The variable of the node. -/
  node : MatchVar
  /-- The end of the edge at which the node lies. -/
  atEnd : EdgeEnd
deriving DecidableEq

namespace Incidence

/-- Whether an edge and a node satisfy the condition. -/
def holds (i : Incidence) (edge node : Triple) : Bool := edge.endName i.atEnd = node.label

/-- The condition as a constraint, the edge on the left. -/
def constraint (i : Incidence) : Constraint MatchVar Triple := ⟨i.edge, i.node, i.holds⟩

/-- The two conditions that a pattern edge puts on its variable. -/
def ofEdge (t : Triple) : List Incidence :=
  [⟨.edge t.label, .node t.source, .source⟩, ⟨.edge t.label, .node t.target, .target⟩]

end Incidence

/-- The constraint problem of a match. -/
abbrev MatchProblem : Type := Problem MatchVar Triple

/-- The problem for the given pattern nodes and edges, each with its possible values. -/
def MatchProblem.build (nodes edges : List (Triple × List Triple)) (injective : Bool) :
    Except (Problem.Error MatchVar) MatchProblem := do
  let nodeVariables : List (Variable MatchVar Triple) :=
    nodes.map fun (t, values) => ⟨.node t.label, values⟩
  let edgeVariables : List (Variable MatchVar Triple) :=
    edges.map fun (t, values) => ⟨.edge t.label, values⟩
  let incidences := edges.flatMap fun (t, _) => Incidence.ofEdge t
  let problem ← Problem.ofVariables (nodeVariables ++ edgeVariables)
  let problem ← (incidences.map Incidence.constraint).foldlM Problem.addConstraint problem
  if injective then
    let problem ← problem.addAllDistinct (nodeVariables.map Variable.id)
    problem.addAllDistinct (edgeVariables.map Variable.id)
  else return problem

/-- The problem of matching `pattern` in `host`. -/
def formulate (pattern host : Graph) (injective : Bool) :
    Except (Problem.Error MatchVar) MatchProblem :=
  MatchProblem.build (pattern.nodes.map fun t => (t, host.nodes))
    (pattern.edges.map fun t => (t, host.edges)) injective

/-- The images of some elements, each once, in the order in which they first occur. -/
def Morphism.distinctImages (m : Morphism) (elements : List Triple) : List Triple :=
  distinct (elements.filterMap m.image)

/-- The problem of matching the codomain of `relevant` in that of `projection`, where an element may
only go to the `projection` of an element that `relevant` sends to it. -/
def formulateTyped (relevant projection : Morphism) (injective : Bool) :
    Except (Problem.Error MatchVar) MatchProblem :=
  MatchProblem.build
    (relevant.codomain.nodes.map fun t =>
      (t, projection.distinctImages (relevant.nodesOver t.label)))
    (relevant.codomain.edges.map fun t => (t, projection.distinctImages (relevant.edgesOver t)))
    injective

end GraphHom
