import GraphHom.Graph.Entry
import GraphHom.Proofs.Morphism.Construction
import Mathlib.Logic.ExistsUnique

/-!
# What makes a morphism

A list of pairs makes a morphism if it reads as a structure-preserving map: `Describes`. It gives no label
two images, lists all labels of the domain and no others, sends every element to one of its kind, and an
edge to one that lies between the images of its ends. Nothing needs to be said about the ends of nodes, nor
about the order and the repetitions of the pairs.

`Morphism.ofPairs` makes a morphism of these lists and of no others (`Morphism.exists_ofPairs_iff_describes`),
and what it makes has just the listed pairs. Every element of the domain then lies over one element of the
codomain, a node over a node and an edge over an edge (`Morphism.existsUnique_nodesOver`,
`Morphism.existsUnique_edgesOver`).
-/

namespace GraphHom

/-! ## Lists of pairs -/

/-- No label is listed with two different images. -/
def IsFunction (pairs : List (Name × Name)) : Prop :=
  ∀ x y y', (x, y) ∈ pairs → (x, y') ∈ pairs → y = y'

/-- The pairs make up a structure-preserving map. -/
structure Describes (domain codomain : Graph) (pairs : List (Name × Name)) : Prop where
  /-- No label is listed with two images. -/
  function : IsFunction pairs
  /-- Listed are the labels of the domain. -/
  labels : ∀ x, (∃ y, (x, y) ∈ pairs) ↔ x ∈ domain.labels
  /-- An image is the label of an element of the same kind. -/
  kinds : ∀ t ∈ domain.elements, ∀ y, (t.label, y) ∈ pairs →
    ∃ u ∈ codomain.elements, u.label = y ∧ (t.IsNode ↔ u.IsNode)
  /-- The ends of an edge go to the ends of its image. -/
  ends : ∀ t ∈ domain.edges, ∀ u ∈ codomain.elements, (t.label, u.label) ∈ pairs →
    (t.source, u.source) ∈ pairs ∧ (t.target, u.target) ∈ pairs

section Describes

variable {domain codomain : Graph} {pairs : List (Name × Name)} {m : LabelMap} {t : Triple}

/-- A list of pairs describes a map if it is a function. -/
theorem LabelMap.exists_ofPairs_iff : (∃ m, LabelMap.ofPairs pairs = .ok m) ↔ IsFunction pairs := by
  constructor
  · rintro ⟨m, hm⟩ x y y' hy hy'
    have hpairs := LabelMap.ofPairs_eq_ok_iff.mp hm
    have hsame := (hpairs x y).mpr hy
    rw [(hpairs x y').mpr hy'] at hsame
    exact (Option.some.inj hsame).symm
  · exact LabelMap.exists_ofPairs

/-- The ends of an element go to the ends of its image: those of an edge are listed so, and a node is its
own end. -/
theorem Describes.ends_mem (h : Describes domain codomain pairs) (ht : t ∈ domain.elements) {u : Triple}
    (hu : u ∈ codomain.elements) (hkind : t.IsNode ↔ u.IsNode) (hlabel : (t.label, u.label) ∈ pairs) :
    (t.source, u.source) ∈ pairs ∧ (t.target, u.target) ∈ pairs := by
  rcases domain.isNode_or_isEdge t ht with hnode | hedge
  · obtain ⟨hsource, htarget⟩ := hnode
    obtain ⟨hsource', htarget'⟩ := hkind.mp ⟨hsource, htarget⟩
    rw [hsource, htarget, hsource', htarget']
    exact ⟨hlabel, hlabel⟩
  · exact h.ends t (Graph.mem_edges_iff.mpr ⟨ht, hedge⟩) u hu hlabel

/-- Pairs that describe a map make up a structure-preserving one if the map is one. -/
theorem describes_iff_isHom (hm : LabelMap.ofPairs pairs = .ok m) :
    Describes domain codomain pairs ↔ IsHom domain codomain m := by
  have hpairs : ∀ x y, m.get? x = some y ↔ (x, y) ∈ pairs := LabelMap.ofPairs_eq_ok_iff.mp hm
  constructor
  · intro h
    refine ⟨fun x y hxy => (h.labels x).mp ⟨y, (hpairs x y).mp hxy⟩, fun t ht => ?_⟩
    obtain ⟨y, hy⟩ := (h.labels t.label).mpr (Graph.label_mem_labels ht)
    obtain ⟨u, hu, rfl, hkind⟩ := h.kinds t ht y hy
    obtain ⟨hsource, htarget⟩ := h.ends_mem ht hu hkind hy
    exact ⟨u, hu, hkind, (hpairs _ _).mpr hy, (hpairs _ _).mpr hsource, (hpairs _ _).mpr htarget⟩
  · intro h
    refine ⟨LabelMap.exists_ofPairs_iff.mp ⟨m, hm⟩, fun x => ?_, fun t ht y hy => ?_,
      fun t ht u hu hlabel => ?_⟩
    · rw [← h.exists_get?_iff]
      exact exists_congr fun y => (hpairs x y).symm
    · obtain ⟨u, hu, hkind, hlabel, -⟩ := h.exists_image t ht
      rw [(hpairs t.label y).mpr hy] at hlabel
      exact ⟨u, hu, (Option.some.inj hlabel).symm, hkind⟩
    · obtain ⟨-, hsource, htarget⟩ :=
        h.exists_image_of_get? (Graph.mem_edges_iff.mp ht).1 hu ((hpairs _ _).mpr hlabel)
      exact ⟨(hpairs _ _).mp hsource, (hpairs _ _).mp htarget⟩

end Describes

namespace Morphism

variable {name : Name} {domain codomain : Graph} {pairs : List (Name × Name)} {m : Morphism}
variable {t u : Triple}

/-- **The lists of pairs that make a morphism** are those that describe a structure-preserving map. -/
theorem exists_ofPairs_iff_describes :
    (∃ m, ofPairs name domain codomain pairs = .ok m) ↔ Describes domain codomain pairs := by
  constructor
  · rintro ⟨m, hm⟩
    obtain ⟨-, hdom, hcod, hpairs⟩ := ofPairs_eq_ok_iff.mp hm
    exact (describes_iff_isHom hpairs).mpr (hdom ▸ hcod ▸ m.isHom)
  · intro h
    obtain ⟨mapping, hpairs⟩ := LabelMap.exists_ofPairs_iff.mpr h.function
    obtain ⟨m, hm, -⟩ := exists_ofPairs name hpairs ((describes_iff_isHom hpairs).mp h)
    exact ⟨m, hm⟩

/-! ## What lies over an element -/

/-- An element is sent to one element only. -/
theorem eq_of_apply {u' : Triple} (hu : u ∈ m.codomain.elements) (hu' : u' ∈ m.codomain.elements)
    (h : m.apply t.label = some u.label) (h' : m.apply t.label = some u'.label) : u = u' := by
  rw [h] at h'
  exact Graph.eq_of_label hu hu' (Option.some.inj h')

theorem existsUnique_nodesOver (ht : t ∈ m.domain.nodes) :
    ∃! u, u ∈ m.codomain.nodes ∧ t ∈ m.nodesOver u.label := by
  obtain ⟨hmem, hnode⟩ := Graph.mem_nodes_iff.mp ht
  obtain ⟨u, hu, hkind, hlabel, -⟩ := exists_image hmem
  refine ⟨u, ⟨Graph.mem_nodes_iff.mpr ⟨hu, hkind.mp hnode⟩, mem_nodesOver_iff.mpr ⟨ht, hlabel⟩⟩, ?_⟩
  rintro u' ⟨hu', hover⟩
  exact eq_of_apply (Graph.mem_nodes_iff.mp hu').1 hu (mem_nodesOver_iff.mp hover).2 hlabel

theorem existsUnique_edgesOver (ht : t ∈ m.domain.edges) :
    ∃! u, u ∈ m.codomain.edges ∧ t ∈ m.edgesOver u := by
  obtain ⟨hmem, hedge⟩ := Graph.mem_edges_iff.mp ht
  obtain ⟨u, hu, hkind, hlabel, -⟩ := exists_image hmem
  have hedge' : u.IsEdge :=
    (Graph.isEdge_iff_not_isNode hu).mpr fun hnode => hedge.not_isNode (hkind.mpr hnode)
  refine ⟨u, ⟨Graph.mem_edges_iff.mpr ⟨hu, hedge'⟩, mem_edgesOver_iff.mpr ⟨ht, hlabel⟩⟩, ?_⟩
  rintro u' ⟨hu', hover⟩
  exact eq_of_apply (Graph.mem_edges_iff.mp hu').1 hu (mem_edgesOver_iff.mp hover).2 hlabel

/-! ## The constructor -/

/-- **The constructor is neither too strict nor too lax.** It makes a morphism exactly of the pairs that
describe a structure-preserving map. The morphism has the given name and graphs and just the listed pairs;
it sends every element to one of the same kind between the images of its ends; and every node, and every
edge, lies over exactly one node, or edge, of the codomain. -/
theorem ofPairs_ok_iff_and_views (name : Name) (domain codomain : Graph)
    (pairs : List (Name × Name)) :
    ((∃ m, ofPairs name domain codomain pairs = .ok m) ↔ Describes domain codomain pairs) ∧
    ∀ m, ofPairs name domain codomain pairs = .ok m →
      (m.name = name ∧ m.domain = domain ∧ m.codomain = codomain) ∧
      (∀ pair, pair ∈ m.mapping.pairs ↔ pair ∈ pairs) ∧
      (∀ t ∈ domain.elements, ∃ u ∈ codomain.elements, m.image t = some u ∧ (t.IsNode ↔ u.IsNode) ∧
        m.apply t.source = some u.source ∧ m.apply t.target = some u.target) ∧
      (∀ t ∈ domain.nodes, ∃! u, u ∈ codomain.nodes ∧ t ∈ m.nodesOver u.label) ∧
      (∀ t ∈ domain.edges, ∃! u, u ∈ codomain.edges ∧ t ∈ m.edgesOver u) := by
  refine ⟨exists_ofPairs_iff_describes, fun m hm => ?_⟩
  obtain ⟨hname, rfl, rfl, hpairs⟩ := ofPairs_eq_ok_iff.mp hm
  refine ⟨⟨hname, rfl, rfl⟩, fun pair => ?_, fun t ht => ?_, fun t ht => existsUnique_nodesOver ht,
    fun t ht => existsUnique_edgesOver ht⟩
  · rw [← LabelMap.get?_eq_some_iff, LabelMap.ofPairs_eq_ok_iff.mp hpairs]
  · obtain ⟨u, hu, hkind, hlabel, hsource, htarget⟩ := exists_image ht
    exact ⟨u, hu, image_eq_some_iff.mpr ⟨ht, hu, hlabel⟩, hkind, hsource, htarget⟩

/-- Two edges, one of them listed before its ends, go to one loop; a pair is repeated. -/
theorem ofPairs_ok_iff_and_views_loop :
    ∃ domain codomain pairs m,
      Graph.ofEntries ⟨"A"⟩ [.edge ⟨⟨"x"⟩, ⟨"e"⟩, ⟨"y"⟩⟩, .edge ⟨⟨"y"⟩, ⟨"f"⟩, ⟨"y"⟩⟩] = .ok domain ∧
      Graph.ofEntries ⟨"B"⟩ [.edge ⟨⟨"a"⟩, ⟨"1"⟩, ⟨"a"⟩⟩, .node ⟨"b"⟩] = .ok codomain ∧
      pairs = [(⟨"e"⟩, ⟨"1"⟩), (⟨"x"⟩, ⟨"a"⟩), (⟨"y"⟩, ⟨"a"⟩), (⟨"x"⟩, ⟨"a"⟩), (⟨"f"⟩, ⟨"1"⟩)] ∧
      ofPairs ⟨"m"⟩ domain codomain pairs = .ok m ∧
      Describes domain codomain pairs ∧ (∀ pair, pair ∈ m.mapping.pairs ↔ pair ∈ pairs) ∧
      ∀ t ∈ domain.edges, ∃! u, u ∈ codomain.edges ∧ t ∈ m.edgesOver u := by
  have hviews : ∀ {domain codomain pairs m}, ofPairs ⟨"m"⟩ domain codomain pairs = .ok m →
      Describes domain codomain pairs ∧ (∀ pair, pair ∈ m.mapping.pairs ↔ pair ∈ pairs) ∧
      ∀ t ∈ domain.edges, ∃! u, u ∈ codomain.edges ∧ t ∈ m.edgesOver u := by
    intro domain codomain pairs m hm
    obtain ⟨hiff, hmade⟩ := ofPairs_ok_iff_and_views ⟨"m"⟩ domain codomain pairs
    obtain ⟨-, hpairs, -, -, hedges⟩ := hmade m hm
    exact ⟨hiff.mp ⟨m, hm⟩, hpairs, hedges⟩
  exact ⟨_, _, _, _, rfl, rfl, rfl, rfl, hviews rfl⟩

end Morphism

end GraphHom
