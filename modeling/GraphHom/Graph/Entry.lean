import GraphHom.Graph.Basic

/-!
# Graphs from entries

Writing a graph down is shorter by entries than by triples: an edge entry brings its ends along as
nodes, so that no edge dangles.
-/

namespace GraphHom

namespace Graph

/-- One entry of a graph under construction. -/
inductive Entry where
  /-- A node. -/
  | node (label : Name)
  /-- An edge together with both of its ends. -/
  | edge (t : Triple)
deriving DecidableEq

/-- The triples an entry stands for. -/
def Entry.triples : Entry → List Triple
  | .node label => [Triple.node label]
  | .edge t => [Triple.node t.source, Triple.node t.target, t]

/-- The graph made of the triples of all entries. -/
def ofEntries (name : Name) (entries : List Entry) : Except BuildError Graph :=
  ofTriples name (entries.flatMap Entry.triples)

end Graph

end GraphHom
