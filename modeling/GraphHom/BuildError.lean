import GraphHom.Triple

/-!
# Why a graph or a morphism cannot be built

One cause per constructor, each with the names it is about; `BuildError.message` words it.
-/

namespace GraphHom

/-- The reasons for refusing a list of triples as a graph or a list of pairs as a morphism. -/
inductive BuildError where
  /-- An end of an edge is no node of the graph. -/
  | danglingEdge (graph edge endpoint : Name)
  /-- Two different triples of the graph have one label. -/
  | duplicateLabel (graph label : Name)
  /-- A triple is neither a node nor an edge. -/
  | malformedTriple (graph : Name) (triple : Triple)
  /-- A mapped label is no label of the domain. -/
  | unknownElement (morphism label : Name)
  /-- A label is mapped to two different images. -/
  | conflictingImages (morphism label : Name)
  /-- A label of the domain is not mapped. -/
  | notTotal (morphism label : Name)
  /-- An image is no label of the codomain. -/
  | unknownImage (morphism label image : Name)
  /-- A node is mapped to an edge or an edge to a node. -/
  | kindMismatch (morphism label : Name)
  /-- The ends of an edge do not go to the ends of its image. -/
  | incidenceViolated (morphism edge : Name)
  /-- Two morphisms that should share a codomain do not. -/
  | codomainMismatch (left right : Name)
deriving DecidableEq

namespace BuildError

/-- The wording of an error. -/
def message : BuildError → String
  | danglingEdge graph edge endpoint =>
    s!"edge {edge} of graph {graph} has no node {endpoint}"
  | duplicateLabel graph label =>
    s!"label {label} occurs twice in graph {graph}"
  | malformedTriple graph triple =>
    s!"triple {triple.text} in graph {graph} is neither node nor edge"
  | unknownElement morphism label =>
    s!"morphism {morphism} maps {label} which is not in its domain"
  | conflictingImages morphism label =>
    s!"morphism {morphism} maps {label} to two different elements"
  | notTotal morphism label =>
    s!"morphism {morphism} does not map {label}"
  | unknownImage morphism label image =>
    s!"morphism {morphism} maps {label} to {image} which is not in its codomain"
  | kindMismatch morphism label =>
    s!"morphism {morphism} maps {label} to an element of the other kind"
  | incidenceViolated morphism edge =>
    s!"morphism {morphism} does not preserve the endpoints of {edge}"
  | codomainMismatch left right =>
    s!"morphisms {left} and {right} have different codomains"

end BuildError

end GraphHom
