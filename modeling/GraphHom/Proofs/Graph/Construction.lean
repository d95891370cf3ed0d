import GraphHom.Graph.Basic

/-!
# Making graphs

`Graph.ofTriples` makes a graph of exactly the triples it is given (`mem_elements_of_ofTriples`), and
it makes one whenever they are nodes and edges, no two with one label, whose ends are there
(`exists_ofTriples`).
-/

namespace GraphHom

namespace Graph

variable {name : Name} {l : List Triple} {g : Graph} {t : Triple}

/-- The graph that is made has the given name and the given triples as its elements. -/
theorem mem_elements_of_ofTriples (h : ofTriples name l = .ok g) :
    g.name = name ∧ ∀ t, t ∈ g.elements ↔ t ∈ l := by
  unfold ofTriples at h
  dsimp only at h
  split at h
  · cases h
  · rename_i hdefect
    split at h
    · cases h
    · cases h
      refine ⟨rfl, fun t => ?_⟩
      have hinj := eq_of_defect_eq_none (List.findSome?_eq_none_iff.mp hdefect)
      show t ∈ sortBy Triple.label (sortBy id l) ↔ t ∈ l
      rw [mem_sortBy_iff hinj, mem_sortBy_id_iff]

theorem defect_eq_none (hkind : ∀ t ∈ l, t.IsNode ∨ t.IsEdge)
    (hlabel : ∀ t ∈ l, ∀ u ∈ l, t.label = u.label → t = u) (ht : t ∈ l) :
    defect name (sortBy id l) t = none := by
  unfold defect
  rw [if_neg fun h => h (hkind t ht), if_neg]
  rintro ⟨u, hu, hlt, heq⟩
  rw [hlabel u (mem_sortBy_id_iff.mp hu) t ht heq] at hlt
  exact Std.lt_irrefl hlt

theorem danglingEnd_eq_none {l : List Triple} (hsource : Triple.node t.source ∈ l)
    (htarget : Triple.node t.target ∈ l) : danglingEnd name l t = none := by
  unfold danglingEnd
  rw [if_neg fun h => h hsource, if_neg fun h => h htarget]

/-- **Well-formed triples make a graph.** -/
theorem exists_ofTriples (name : Name) (hkind : ∀ t ∈ l, t.IsNode ∨ t.IsEdge)
    (hlabel : ∀ t ∈ l, ∀ u ∈ l, t.label = u.label → t = u)
    (hends : ∀ t ∈ l, Triple.node t.source ∈ l ∧ Triple.node t.target ∈ l) :
    ∃ g, ofTriples name l = .ok g := by
  have hmem : ∀ t, t ∈ sortBy Triple.label (sortBy id l) ↔ t ∈ l := fun t => by
    rw [mem_sortBy_iff fun a ha b hb => hlabel a (mem_sortBy_id_iff.mp ha) b (mem_sortBy_id_iff.mp hb),
      mem_sortBy_id_iff]
  unfold ofTriples
  dsimp only
  split
  · rename_i error herror
    obtain ⟨t, ht, hsome⟩ := List.exists_of_findSome?_eq_some herror
    rw [defect_eq_none hkind hlabel (mem_sortBy_id_iff.mp ht)] at hsome
    cases hsome
  · split
    · rename_i error herror
      obtain ⟨t, ht, hsome⟩ := List.exists_of_findSome?_eq_some herror
      obtain ⟨hsource, htarget⟩ := hends t ((hmem t).mp ht)
      rw [danglingEnd_eq_none ((hmem _).mpr hsource) ((hmem _).mpr htarget)] at hsome
      cases hsome
    · exact ⟨_, rfl⟩

end Graph

end GraphHom
