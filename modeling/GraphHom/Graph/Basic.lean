import GraphHom.Ascending
import GraphHom.BuildError

/-!
# Graphs

A graph is a name with a set of nodes and edges, kept in ascending order of their labels. Its
invariants are part of the type: every element is a node or an edge, no two elements share a label,
and the ends of every edge are nodes of the graph.

`Graph.ofTriples` is the only way in. Order and repetition of the triples do not matter to it. It
looks for defects in the order of triples, for dangling edges in the order of labels, and reports
the first.
-/

namespace GraphHom

/-- A graph: a name and its elements. -/
structure Graph where
  /-- The name of the graph. -/
  name : Name
  /-- The nodes and edges in ascending order of their labels. -/
  elements : List Triple
  /-- No two elements have one label. -/
  ascending : Ascending Triple.label elements
  /-- Every element is a node or an edge. -/
  isNode_or_isEdge : ∀ t ∈ elements, t.IsNode ∨ t.IsEdge
  /-- The ends of every element are nodes of the graph. -/
  ends_mem : ∀ t ∈ elements, Triple.node t.source ∈ elements ∧ Triple.node t.target ∈ elements
deriving DecidableEq

namespace Graph

/-! ## Views -/

/-- The nodes in ascending order of their labels. -/
def nodes (g : Graph) : List Triple := g.elements.filter Triple.IsNode

/-- The edges in ascending order of their labels. -/
def edges (g : Graph) : List Triple := g.elements.filter Triple.IsEdge

/-- The labels in ascending order. -/
def labels (g : Graph) : List Name := g.elements.map Triple.label

/-- The element called `label`. -/
def get? (g : Graph) (label : Name) : Option Triple := g.elements.find? (·.label = label)

/-- Whether `t` is an element of the graph. -/
def contains (g : Graph) (t : Triple) : Bool := t ∈ g.elements

/-- Whether the graph has no elements. -/
def isEmpty (g : Graph) : Bool := g.elements.isEmpty

/-- The name followed by the elements between braces. -/
def text (g : Graph) : String :=
  g.name.text ++ " \x7b" ++ ", ".intercalate (g.elements.map Triple.text) ++ "\x7d"

theorem get?_eq_some_iff {g : Graph} {label : Name} {t : Triple} :
    g.get? label = some t ↔ t ∈ g.elements ∧ t.label = label :=
  g.ascending.find?_eq_some_iff

/-! ## Building -/

/-- What is wrong with `t` among `triples`: it is neither a node nor an edge, or a lesser triple has
its label. -/
def defect (name : Name) (triples : List Triple) (t : Triple) : Option BuildError :=
  if ¬(t.IsNode ∨ t.IsEdge) then some (.malformedTriple name t)
  else if ∃ u ∈ triples, u < t ∧ u.label = t.label then some (.duplicateLabel name t.label)
  else none

/-- The first end of `t`, source before target, that is no node among `triples`. -/
def danglingEnd (name : Name) (triples : List Triple) (t : Triple) : Option BuildError :=
  if Triple.node t.source ∉ triples then some (.danglingEdge name t.label t.source)
  else if Triple.node t.target ∉ triples then some (.danglingEdge name t.label t.target)
  else none

theorem isNode_or_isEdge_of_defect_eq_none {name : Name} {triples : List Triple} {t : Triple}
    (h : defect name triples t = none) : t.IsNode ∨ t.IsEdge := by
  unfold defect at h
  split at h
  · cases h
  · rename_i hn
    exact Decidable.not_not.mp hn

theorem label_ne_of_defect_eq_none {name : Name} {triples : List Triple} {t u : Triple}
    (h : defect name triples t = none) (hu : u ∈ triples) (hlt : u < t) : u.label ≠ t.label := by
  unfold defect at h
  split at h
  · cases h
  · split at h
    · cases h
    · rename_i hn
      exact fun hl => hn ⟨u, hu, hlt, hl⟩

theorem eq_of_defect_eq_none {name : Name} {triples : List Triple}
    (h : ∀ t ∈ triples, defect name triples t = none) :
    ∀ t ∈ triples, ∀ u ∈ triples, t.label = u.label → t = u := by
  intro t ht u hu hl
  by_cases htu : t < u
  · exact absurd hl (label_ne_of_defect_eq_none (h u hu) ht htu)
  · by_cases hut : u < t
    · exact absurd hl.symm (label_ne_of_defect_eq_none (h t ht) hu hut)
    · exact Std.Trichotomous.trichotomous t u htu hut

theorem ends_mem_of_danglingEnd_eq_none {name : Name} {triples : List Triple} {t : Triple}
    (h : danglingEnd name triples t = none) :
    Triple.node t.source ∈ triples ∧ Triple.node t.target ∈ triples := by
  unfold danglingEnd at h
  split at h
  · cases h
  · split at h
    · cases h
    · rename_i hs ht
      exact ⟨Decidable.not_not.mp hs, Decidable.not_not.mp ht⟩

/-- The graph made of `triples`, or the first reason why they make none. -/
def ofTriples (name : Name) (triples : List Triple) : Except BuildError Graph :=
  let distinct := sortBy id triples
  match hdefect : distinct.findSome? (defect name distinct) with
  | some error => .error error
  | none =>
    let elements := sortBy Triple.label distinct
    match hends : elements.findSome? (danglingEnd name elements) with
    | some error => .error error
    | none =>
      have hmem : ∀ t ∈ distinct, defect name distinct t = none :=
        List.findSome?_eq_none_iff.mp hdefect
      .ok {
        name := name
        elements := elements
        ascending := Ascending.sortBy
        isNode_or_isEdge := fun t ht =>
          isNode_or_isEdge_of_defect_eq_none (hmem t (mem_of_mem_sortBy ht))
        ends_mem := fun t ht =>
          ends_mem_of_danglingEnd_eq_none (List.findSome?_eq_none_iff.mp hends t ht) }

end Graph

end GraphHom
