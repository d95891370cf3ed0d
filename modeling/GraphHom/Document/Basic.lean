import GraphHom.Graph.Entry
import GraphHom.Morphism.Basic

/-!
# Documents

A document defines graphs and morphisms by name. Definitions are plain data: nothing in them is
checked until `Document.graph` or `Document.morphism` builds what a name stands for.
-/

namespace GraphHom

/-- The definition of a graph. -/
structure GraphDef where
  /-- The name of the graph. -/
  name : Name
  /-- The nodes, as listed. -/
  nodes : List Name
  /-- The edges, as listed; they bring their ends along. -/
  edges : List Triple
deriving DecidableEq

/-- The definition of a morphism. -/
structure MorphismDef where
  /-- The name of the morphism. -/
  name : Name
  /-- The name of the graph it maps. -/
  domain : Name
  /-- The name of the graph it maps into. -/
  codomain : Name
  /-- The labels with their images, as listed. -/
  map : List (Name × Name)
deriving DecidableEq

/-- One definition of a document. -/
inductive Definition where
  /-- The definition of a graph. -/
  | graph (g : GraphDef)
  /-- The definition of a morphism. -/
  | morphism (m : MorphismDef)
deriving DecidableEq

/-- The name a definition gives. -/
def Definition.name : Definition → Name
  | .graph g => g.name
  | .morphism m => m.name

/-- The definitions of a text, graphs and morphisms apart, each in order of appearance. -/
structure Document where
  /-- The graph definitions. -/
  graphs : List GraphDef
  /-- The morphism definitions. -/
  morphisms : List MorphismDef
deriving DecidableEq

/-- Building what a graph definition describes. -/
def GraphDef.build (g : GraphDef) : Except BuildError Graph :=
  Graph.ofEntries g.name (g.nodes.map .node ++ g.edges.map .edge)

namespace Document

/-- Why a name of a document stands for nothing. -/
inductive LookupError where
  /-- The document defines no graph of this name. -/
  | unknownGraph (name : Name)
  /-- The document defines no morphism of this name. -/
  | unknownMorphism (name : Name)
  /-- What the document defines cannot be built. -/
  | invalid (error : BuildError)
deriving DecidableEq

/-- The wording of an error. -/
def LookupError.message : LookupError → String
  | unknownGraph name => s!"no graph named {name}"
  | unknownMorphism name => s!"no morphism named {name}"
  | invalid error => error.message

/-- The document without definitions. -/
def empty : Document := ⟨[], []⟩

/-- The document made of a list of definitions. -/
def ofDefinitions (definitions : List Definition) : Document where
  graphs := definitions.filterMap fun | .graph g => some g | .morphism _ => none
  morphisms := definitions.filterMap fun | .graph _ => none | .morphism m => some m

/-- Whether a graph or a morphism is called `name`. -/
def defines (d : Document) (name : Name) : Bool :=
  d.graphs.any (·.name = name) || d.morphisms.any (·.name = name)

/-- The graph called `name`, built from the first definition of that name. -/
def graph (d : Document) (name : Name) : Except LookupError Graph :=
  match d.graphs.find? (·.name = name) with
  | none => .error (.unknownGraph name)
  | some g => g.build.mapError .invalid

/-- The morphism called `name`, built from the first definition of that name. -/
def morphism (d : Document) (name : Name) : Except LookupError Morphism :=
  match d.morphisms.find? (·.name = name) with
  | none => .error (.unknownMorphism name)
  | some m => do
    let domain ← d.graph m.domain
    let codomain ← d.graph m.codomain
    (Morphism.ofPairs m.name domain codomain m.map).mapError .invalid

end Document

end GraphHom
