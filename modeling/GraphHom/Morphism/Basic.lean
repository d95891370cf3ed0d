import GraphHom.Graph.Basic
import GraphHom.LabelMap

/-!
# Morphisms

A morphism is a named label map between two graphs that preserves their structure: `IsHom`. The map
is defined on exactly the labels of the domain, and it carries every element to an element of its
kind, sources to sources and targets to targets.

`Morphism.ofPairs` is the only way in. It refuses, in this order: a label with two images, the least
label that is not in the domain, and then the first fault met on a walk through the domain in the
order of labels.
-/

namespace GraphHom

/-- `mapping` preserves the structure of `domain` in `codomain`. -/
structure IsHom (domain codomain : Graph) (mapping : LabelMap) : Prop where
  /-- Only labels of the domain are mapped. -/
  mem_labels : ∀ x y, mapping.get? x = some y → x ∈ domain.labels
  /-- An element goes to an element of its kind, with its ends going to the ends of the image. -/
  exists_image : ∀ t ∈ domain.elements, ∃ u ∈ codomain.elements,
    (t.IsNode ↔ u.IsNode) ∧ mapping.get? t.label = some u.label ∧
      mapping.get? t.source = some u.source ∧ mapping.get? t.target = some u.target

/-- A structure-preserving map between two graphs. -/
structure Morphism where
  /-- The name of the morphism. -/
  name : Name
  /-- The graph it maps. -/
  domain : Graph
  /-- The graph it maps into. -/
  codomain : Graph
  /-- The image of every label of the domain. -/
  mapping : LabelMap
  /-- The map preserves the structure of the domain. -/
  isHom : IsHom domain codomain mapping
deriving DecidableEq

namespace Morphism

/-! ## Views -/

/-- The image of a label. -/
def apply (m : Morphism) (label : Name) : Option Name := m.mapping.get? label

/-- The image of an element of the domain. -/
def image (m : Morphism) (t : Triple) : Option Triple :=
  if t ∈ m.domain.elements then (m.apply t.label).bind m.codomain.get? else none

/-- The nodes of the domain that go to the node called `label`. -/
def nodesOver (m : Morphism) (label : Name) : List Triple :=
  m.domain.nodes.filter (m.apply ·.label = some label)

/-- The edges of the domain that go to the edge `t`. -/
def edgesOver (m : Morphism) (t : Triple) : List Triple :=
  m.domain.edges.filter (m.apply ·.label = some t.label)

/-- The name, the two graphs and the pairs between braces. -/
def text (m : Morphism) : String :=
  m.name.text ++ ": " ++ m.domain.name.text ++ " -> " ++ m.codomain.name.text ++ " \x7b" ++
    ", ".intercalate (m.mapping.pairs.map fun p => p.1.text ++ " |-> " ++ p.2.text) ++ "\x7d"

/-! ## Building -/

/-- What is wrong with the image of the domain element `t`. -/
def imageFault (name : Name) (codomain : Graph) (mapping : LabelMap) (t : Triple) :
    Option BuildError :=
  match mapping.get? t.label with
  | none => some (.notTotal name t.label)
  | some label =>
    match codomain.get? label with
    | none => some (.unknownImage name t.label label)
    | some u =>
      if ¬(t.IsNode ↔ u.IsNode) then some (.kindMismatch name t.label)
      else if mapping.get? t.source = some u.source ∧ mapping.get? t.target = some u.target then
        none
      else some (.incidenceViolated name t.label)

/-- The first reason why `mapping` does not preserve the structure of `domain` in `codomain`. -/
def fault (name : Name) (domain codomain : Graph) (mapping : LabelMap) : Option BuildError :=
  match mapping.keys.find? (· ∉ domain.labels) with
  | some label => some (.unknownElement name label)
  | none => domain.elements.findSome? (imageFault name codomain mapping)

theorem imageFault_eq_none_iff {name : Name} {codomain : Graph} {mapping : LabelMap} {t : Triple} :
    imageFault name codomain mapping t = none ↔ ∃ u ∈ codomain.elements,
      (t.IsNode ↔ u.IsNode) ∧ mapping.get? t.label = some u.label ∧
        mapping.get? t.source = some u.source ∧ mapping.get? t.target = some u.target := by
  constructor
  · intro h
    unfold imageFault at h
    split at h
    · cases h
    · rename_i label hlabel
      split at h
      · cases h
      · rename_i u hu
        obtain ⟨hmem, rfl⟩ := Graph.get?_eq_some_iff.mp hu
        split at h
        · cases h
        · rename_i hkind
          split at h
          · rename_i hends
            exact ⟨u, hmem, Decidable.not_not.mp hkind, hlabel, hends⟩
          · cases h
  · rintro ⟨u, hmem, hkind, hlabel, hsource, htarget⟩
    have hu : codomain.get? u.label = some u := Graph.get?_eq_some_iff.mpr ⟨hmem, rfl⟩
    simp [imageFault, hlabel, hu, hkind, hsource, htarget]

theorem fault_eq_none_iff {name : Name} {domain codomain : Graph} {mapping : LabelMap} :
    fault name domain codomain mapping = none ↔ IsHom domain codomain mapping := by
  unfold fault
  split
  · rename_i label hlabel
    refine ⟨fun h => absurd h (by simp), fun h => ?_⟩
    obtain ⟨y, hy⟩ := LabelMap.mem_keys_iff.mp (List.mem_of_find?_eq_some hlabel)
    have hnot : label ∉ domain.labels := by simpa using List.find?_some hlabel
    exact absurd (h.mem_labels label y hy) hnot
  · rename_i hfind
    have hkeys : ∀ x y, mapping.get? x = some y → x ∈ domain.labels := by
      intro x y h
      simpa using List.find?_eq_none.mp hfind x (LabelMap.mem_keys_iff.mpr ⟨y, h⟩)
    rw [List.findSome?_eq_none_iff]
    exact ⟨fun h => ⟨hkeys, fun t ht => imageFault_eq_none_iff.mp (h t ht)⟩,
      fun h t ht => imageFault_eq_none_iff.mpr (h.exists_image t ht)⟩

/-- The morphism that maps as `mapping` says, or the first reason why there is none. -/
def ofMap (name : Name) (domain codomain : Graph) (mapping : LabelMap) :
    Except BuildError Morphism :=
  match h : fault name domain codomain mapping with
  | some error => .error error
  | none => .ok ⟨name, domain, codomain, mapping, fault_eq_none_iff.mp h⟩

/-- The morphism that maps as `pairs` lists it, or the first reason why there is none. -/
def ofPairs (name : Name) (domain codomain : Graph) (pairs : List (Name × Name)) :
    Except BuildError Morphism :=
  match LabelMap.ofPairs pairs with
  | .error label => .error (.conflictingImages name label)
  | .ok mapping => ofMap name domain codomain mapping

end Morphism

end GraphHom
