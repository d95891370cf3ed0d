import GraphHom.Morphism.Basic

/-!
# What graphs and morphisms are made of

The facts about graphs, label maps and morphisms that the theory of matching rests on, so that it
need not look into them again:

* `Graph.eq_of_label` and the views — an element is known by its label, and is a node or an edge;
* `LabelMap.ofPairs_eq_ok_iff` — a list of pairs describes exactly the map with these pairs;
* `IsHom.exists_image_of_get?`, `IsHom.exists_get?_iff` — what a structure-preserving map does to
  elements, and that it is defined on their labels alone;
* `Morphism.image_eq_some_iff`, `Morphism.exists_image`, `Morphism.mem_nodesOver_iff`,
  `Morphism.mem_edgesOver_iff` — what a morphism does to the elements of its domain;
* `Morphism.ofPairs_eq_ok_iff` — the constructor accepts exactly the pairs of the morphism it makes.
-/

namespace GraphHom

/-! ## Elements of graphs -/

namespace Graph

variable {g : Graph} {t u : Triple}

theorem mem_nodes_iff : t ∈ g.nodes ↔ t ∈ g.elements ∧ t.IsNode := by
  rw [nodes, List.mem_filter, decide_eq_true_eq]

theorem mem_edges_iff : t ∈ g.edges ↔ t ∈ g.elements ∧ t.IsEdge := by
  rw [edges, List.mem_filter, decide_eq_true_eq]

theorem isEdge_iff_not_isNode (ht : t ∈ g.elements) : t.IsEdge ↔ ¬t.IsNode :=
  ⟨Triple.IsEdge.not_isNode, fun h => (g.isNode_or_isEdge t ht).resolve_left h⟩

/-- The nodes and the edges make up the elements: what is no node is an edge. -/
theorem nodes_append_edges_perm : (g.nodes ++ g.edges).Perm g.elements := by
  have hedges : g.edges = g.elements.filter fun t => !decide t.IsNode := by
    refine List.filter_congr fun t ht => ?_
    simp [isEdge_iff_not_isNode ht]
  rw [hedges, nodes]
  exact List.filter_append_perm _ _

/-- An element is known by its label. -/
theorem eq_of_label (ht : t ∈ g.elements) (hu : u ∈ g.elements) (h : t.label = u.label) : t = u :=
  g.ascending.eq_of_mem ht hu h

theorem mem_labels_iff {x : Name} : x ∈ g.labels ↔ ∃ t ∈ g.elements, t.label = x := List.mem_map

theorem label_mem_labels (ht : t ∈ g.elements) : t.label ∈ g.labels := mem_labels_iff.mpr ⟨t, ht, rfl⟩

theorem get?_label (ht : t ∈ g.elements) : g.get? t.label = some t := get?_eq_some_iff.mpr ⟨ht, rfl⟩

theorem nodup_elements : g.elements.Nodup := by
  have hlt : g.elements.Pairwise fun t u => t.label < u.label := g.ascending
  refine hlt.imp fun {t u} h heq => ?_
  rw [heq] at h
  exact Std.lt_irrefl h

/-- Graphs are equal if their names and their elements are. -/
theorem eq_iff {g' : Graph} : g = g' ↔ g.name = g'.name ∧ g.elements = g'.elements := by
  constructor
  · rintro rfl
    exact ⟨rfl, rfl⟩
  · rintro ⟨hname, helements⟩
    cases g
    cases g'
    cases hname
    cases helements
    rfl

theorem isEmpty_eq_true_iff : g.isEmpty = true ↔ g.elements = [] := List.isEmpty_iff

end Graph

/-! ## Label maps from pairs -/

namespace LabelMap

theorem get?_eq_of_addPair_eq_ok {m m' : LabelMap} {p : Name × Name} (h : m.addPair p = .ok m')
    (x y : Name) : m'.get? x = some y ↔ m.get? x = some y ∨ (x, y) = p := by
  unfold addPair at h
  split at h
  · -- a new label: the pair is entered
    rename_i hnone
    cases h
    rw [get?_insert]
    split
    · rename_i hx
      subst hx
      rw [hnone]
      constructor
      · intro hy
        exact .inr (by rw [← Option.some.inj hy])
      · rintro (hy | hy)
        · cases hy
        · rw [← hy]
    · rename_i hx
      refine ⟨Or.inl, fun hy => hy.resolve_right ?_⟩
      rintro rfl
      exact hx rfl
  · -- a repeated label: it must have the image that the pair gives it
    rename_i image himage
    split at h
    · rename_i heq
      cases h
      refine ⟨Or.inl, fun hy => hy.elim id ?_⟩
      rintro rfl
      rw [himage, heq]
    · cases h

/-- Adding pairs to a map succeeds exactly if they and the map describe one map together. -/
theorem foldlM_addPair_eq_ok_iff {m m' : LabelMap} {pairs : List (Name × Name)} :
    pairs.foldlM addPair m = .ok m' ↔
      ∀ x y, m'.get? x = some y ↔ m.get? x = some y ∨ (x, y) ∈ pairs := by
  induction pairs generalizing m with
  | nil =>
    constructor
    · intro h x y
      cases h
      simp
    · intro h
      have heq : m' = m := ext_get? fun x => Option.ext fun y => by simpa using h x y
      rw [heq]
      rfl
  | cons p pairs ih =>
    rw [List.foldlM_cons]
    cases hp : m.addPair p with
    | ok m₁ =>
      show pairs.foldlM addPair m₁ = .ok m' ↔ _
      rw [ih]
      refine forall_congr' fun x => forall_congr' fun y => ?_
      rw [get?_eq_of_addPair_eq_ok hp, List.mem_cons, or_assoc]
    | error x =>
      refine ⟨fun h => (by cases h), fun h => ?_⟩
      -- a refused pair gives its label a second image
      unfold addPair at hp
      split at hp
      · cases hp
      · rename_i image himage
        split at hp
        · cases hp
        · rename_i hne
          have h₁ := (h p.1 image).mpr (.inl himage)
          have h₂ := (h p.1 p.2).mpr (.inr List.mem_cons_self)
          rw [h₁] at h₂
          exact absurd (Option.some.inj h₂) hne

/-- **A list of pairs describes exactly the map with these pairs.** -/
theorem ofPairs_eq_ok_iff {pairs : List (Name × Name)} {m : LabelMap} :
    ofPairs pairs = .ok m ↔ ∀ x y, m.get? x = some y ↔ (x, y) ∈ pairs := by
  rw [ofPairs, foldlM_addPair_eq_ok_iff]
  simp

/-- Pairs that give no label two images, together with those of a map, can be added to it. -/
theorem exists_foldlM_addPair {m : LabelMap} {pairs : List (Name × Name)}
    (h : ∀ x y y', (m.get? x = some y ∨ (x, y) ∈ pairs) →
      (m.get? x = some y' ∨ (x, y') ∈ pairs) → y = y') :
    ∃ m', pairs.foldlM addPair m = .ok m' := by
  induction pairs generalizing m with
  | nil => exact ⟨m, rfl⟩
  | cons p pairs ih =>
    -- the first pair is not refused, because it and the map give its label one image
    have hadd : ∃ m₁, m.addPair p = .ok m₁ := by
      unfold addPair
      split
      · exact ⟨_, rfl⟩
      · rename_i image himage
        rw [if_pos (h p.1 image p.2 (.inl himage) (.inr List.mem_cons_self))]
        exact ⟨m, rfl⟩
    obtain ⟨m₁, hm₁⟩ := hadd
    have hrest : ∀ x y, m₁.get? x = some y ∨ (x, y) ∈ pairs →
        m.get? x = some y ∨ (x, y) ∈ p :: pairs := by
      intro x y hxy
      rwa [get?_eq_of_addPair_eq_ok hm₁, or_assoc, ← List.mem_cons] at hxy
    obtain ⟨m', hm'⟩ := ih fun x y y' hy hy' => h x y y' (hrest x y hy) (hrest x y' hy')
    refine ⟨m', ?_⟩
    rw [List.foldlM_cons, hm₁]
    exact hm'

/-- Pairs that give no label two images describe a map. -/
theorem exists_ofPairs {pairs : List (Name × Name)}
    (h : ∀ x y y', (x, y) ∈ pairs → (x, y') ∈ pairs → y = y') : ∃ m, ofPairs pairs = .ok m :=
  exists_foldlM_addPair fun x y y' hy hy' => h x y y' (by simpa using hy) (by simpa using hy')

/-- A map is described by its own pairs. -/
theorem ofPairs_pairs {m : LabelMap} : ofPairs m.pairs = .ok m :=
  ofPairs_eq_ok_iff.mpr fun _ _ => get?_eq_some_iff

/-- Different labels have different images. -/
def Injective (m : LabelMap) : Prop := ∀ x x' y, m.get? x = some y → m.get? x' = some y → x = x'

end LabelMap

/-! ## Structure-preserving maps -/

namespace IsHom

variable {domain codomain : Graph} {m : LabelMap} {t u : Triple}

/-- The image of an element is the element with the image of its label. -/
theorem exists_image_of_get? (h : IsHom domain codomain m) (ht : t ∈ domain.elements)
    (hu : u ∈ codomain.elements) (hlabel : m.get? t.label = some u.label) :
    (t.IsNode ↔ u.IsNode) ∧ m.get? t.source = some u.source ∧ m.get? t.target = some u.target := by
  obtain ⟨u', hu', hkind, hlabel', hends⟩ := h.exists_image t ht
  rw [hlabel] at hlabel'
  rw [Graph.eq_of_label hu hu' (Option.some.inj hlabel')]
  exact ⟨hkind, hends⟩

/-- Exactly the labels of the domain have an image. -/
theorem exists_get?_iff (h : IsHom domain codomain m) {x : Name} :
    (∃ y, m.get? x = some y) ↔ x ∈ domain.labels := by
  constructor
  · rintro ⟨y, hy⟩
    exact h.mem_labels x y hy
  · intro hx
    obtain ⟨t, ht, rfl⟩ := Graph.mem_labels_iff.mp hx
    obtain ⟨u, -, -, hlabel, -⟩ := h.exists_image t ht
    exact ⟨u.label, hlabel⟩

end IsHom

/-! ## Images under morphisms -/

namespace Morphism

section Images

variable {m : Morphism} {t u : Triple}

theorem image_eq_some_iff : m.image t = some u ↔
    t ∈ m.domain.elements ∧ u ∈ m.codomain.elements ∧ m.apply t.label = some u.label := by
  unfold image
  by_cases ht : t ∈ m.domain.elements
  · rw [if_pos ht, Option.bind_eq_some_iff]
    constructor
    · rintro ⟨x, hx, hu⟩
      obtain ⟨hmem, rfl⟩ := Graph.get?_eq_some_iff.mp hu
      exact ⟨ht, hmem, hx⟩
    · rintro ⟨-, hmem, hx⟩
      exact ⟨u.label, hx, Graph.get?_label hmem⟩
  · rw [if_neg ht]
    simp [ht]

/-- Every element has an image. -/
theorem exists_image (ht : t ∈ m.domain.elements) :
    ∃ u ∈ m.codomain.elements, (t.IsNode ↔ u.IsNode) ∧ m.apply t.label = some u.label ∧
      m.apply t.source = some u.source ∧ m.apply t.target = some u.target :=
  m.isHom.exists_image t ht

theorem mem_nodesOver_iff {x : Name} :
    t ∈ m.nodesOver x ↔ t ∈ m.domain.nodes ∧ m.apply t.label = some x := by
  rw [nodesOver, List.mem_filter, decide_eq_true_eq]

theorem mem_edgesOver_iff :
    t ∈ m.edgesOver u ↔ t ∈ m.domain.edges ∧ m.apply t.label = some u.label := by
  rw [edgesOver, List.mem_filter, decide_eq_true_eq]

end Images

/-! ## Morphisms from pairs -/

theorem ofMap_eq_ok_iff {name : Name} {domain codomain : Graph} {mapping : LabelMap}
    {m : Morphism} :
    ofMap name domain codomain mapping = .ok m ↔
      m.name = name ∧ m.domain = domain ∧ m.codomain = codomain ∧ m.mapping = mapping := by
  unfold ofMap
  split
  · rename_i error herror
    refine ⟨fun h => (by cases h), ?_⟩
    rintro ⟨rfl, rfl, rfl, rfl⟩
    rw [fault_eq_none_iff.mpr m.isHom] at herror
    cases herror
  · constructor
    · intro h
      cases h
      exact ⟨rfl, rfl, rfl, rfl⟩
    · rintro ⟨rfl, rfl, rfl, rfl⟩
      rfl

/-- **The constructor accepts exactly the pairs of the morphism it makes.** -/
theorem ofPairs_eq_ok_iff {name : Name} {domain codomain : Graph} {pairs : List (Name × Name)}
    {m : Morphism} :
    ofPairs name domain codomain pairs = .ok m ↔
      m.name = name ∧ m.domain = domain ∧ m.codomain = codomain ∧
        LabelMap.ofPairs pairs = .ok m.mapping := by
  unfold ofPairs
  cases LabelMap.ofPairs pairs with
  | error label => simp
  | ok mapping =>
    show ofMap name domain codomain mapping = .ok m ↔ _
    rw [ofMap_eq_ok_iff, Except.ok.injEq, eq_comm (a := mapping)]

/-- Pairs that describe a structure-preserving map make a morphism. -/
theorem exists_ofPairs (name : Name) {domain codomain : Graph} {pairs : List (Name × Name)}
    {mapping : LabelMap} (hpairs : LabelMap.ofPairs pairs = .ok mapping)
    (hhom : IsHom domain codomain mapping) :
    ∃ m, ofPairs name domain codomain pairs = .ok m ∧ m.domain = domain ∧ m.codomain = codomain ∧
      m.mapping = mapping :=
  ⟨⟨name, domain, codomain, mapping, hhom⟩, ofPairs_eq_ok_iff.mpr ⟨rfl, rfl, rfl, hpairs⟩, rfl, rfl,
    rfl⟩

end Morphism

end GraphHom
