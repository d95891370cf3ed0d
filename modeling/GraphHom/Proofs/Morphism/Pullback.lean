import GraphHom.Morphism.Pullback
import GraphHom.Proofs.Graph.Construction
import GraphHom.Proofs.Morphism.Construction
import GraphHom.Proofs.Name
import Mathlib.Data.List.Nodup

/-!
# The pullback object and its projections

The elements of the pullback object are the pairs of elements of one kind with one image
(`mem_matchingPairs_iff`). Because names of pairs are different for different pairs, a pair is a node
or an edge as its components are, and no two pairs share a label; because morphisms preserve structure,
the ends of a pair are pairs themselves (`ends_mem_matchingPairs`). So nothing in the construction can
fail, and the projections undo the pairing (`exists_pullback`).
-/

namespace GraphHom

/-! ## Pairs of elements -/

namespace Triple

variable {a a' b b' : Triple}

theorem pair_isNode_iff : (a.pair b).IsNode ↔ a.IsNode ∧ b.IsNode := by
  show Name.pair a.source b.source = Name.pair a.label b.label ∧
    Name.pair a.target b.target = Name.pair a.label b.label ↔ _
  rw [Name.pair_inj, Name.pair_inj]
  exact and_and_and_comm

theorem IsEdge.pair (ha : a.IsEdge) : (a.pair b).IsEdge :=
  ⟨fun h => ha.1 (Name.pair_inj.mp h).1, fun h => ha.2 (Name.pair_inj.mp h).1⟩

theorem label_pair_inj : (a.pair b).label = (a'.pair b').label ↔
    a.label = a'.label ∧ b.label = b'.label :=
  Name.pair_inj

end Triple

namespace Morphism

variable {left right : Morphism} {a b : Triple}

/-! ## Matching pairs -/

theorem mem_matchingPairs_iff : (a, b) ∈ left.matchingPairs right ↔
    a ∈ left.domain.elements ∧ b ∈ right.domain.elements ∧ (a.IsNode ↔ b.IsNode) ∧
      left.apply a.label = right.apply b.label := by
  simp only [matchingPairs, List.mem_flatMap, List.mem_map, List.mem_filter, decide_eq_true_eq]
  constructor
  · rintro ⟨a', ha, b', ⟨hb, hkind, happly⟩, heq⟩
    cases heq
    exact ⟨ha, hb, hkind, happly⟩
  · rintro ⟨ha, hb, hkind, happly⟩
    exact ⟨a, ha, b, ⟨hb, hkind, happly⟩, rfl⟩

/-- The ends of a matching pair match, because their images are the ends of one image. -/
theorem ends_mem_matchingPairs (hcod : left.codomain = right.codomain)
    (h : (a, b) ∈ left.matchingPairs right) :
    (Triple.node a.source, Triple.node b.source) ∈ left.matchingPairs right ∧
      (Triple.node a.target, Triple.node b.target) ∈ left.matchingPairs right := by
  obtain ⟨ha, hb, -, happly⟩ := mem_matchingPairs_iff.mp h
  obtain ⟨u, hu, -, hlabel, hsource, htarget⟩ := left.isHom.exists_image a ha
  -- the image of `a` in the common codomain is that of `b` too
  have hlabel' : right.mapping.get? b.label = some u.label := happly.symm.trans hlabel
  obtain ⟨-, hsource', htarget'⟩ := right.isHom.exists_image_of_get? hb (hcod ▸ hu) hlabel'
  have hkind : ∀ x y : Name, (Triple.node x).IsNode ↔ (Triple.node y).IsNode :=
    fun _ _ => iff_of_true Triple.isNode_node Triple.isNode_node
  exact ⟨mem_matchingPairs_iff.mpr ⟨(left.domain.ends_mem a ha).1, (right.domain.ends_mem b hb).1,
      hkind _ _, hsource.trans hsource'.symm⟩,
    mem_matchingPairs_iff.mpr ⟨(left.domain.ends_mem a ha).2, (right.domain.ends_mem b hb).2,
      hkind _ _, htarget.trans htarget'.symm⟩⟩

/-- A matching pair is known by its label. -/
theorem eq_of_label_pair {a' b' : Triple} (h : (a, b) ∈ left.matchingPairs right)
    (h' : (a', b') ∈ left.matchingPairs right) (hlabel : (a.pair b).label = (a'.pair b').label) :
    a = a' ∧ b = b' := by
  obtain ⟨ha, hb, -⟩ := mem_matchingPairs_iff.mp h
  obtain ⟨ha', hb', -⟩ := mem_matchingPairs_iff.mp h'
  obtain ⟨hfirst, hsecond⟩ := Triple.label_pair_inj.mp hlabel
  exact ⟨Graph.eq_of_label ha ha' hfirst, Graph.eq_of_label hb hb' hsecond⟩

theorem nodup_matchingPairs : (left.matchingPairs right).Nodup := by
  refine List.nodup_flatMap.mpr ⟨fun a _ => ?_, ?_⟩
  · exact (Graph.nodup_elements.filter _).map fun b b' h => (Prod.mk.inj h).2
  · refine Graph.nodup_elements.imp fun {a a'} hne p hp hp' => hne ?_
    obtain ⟨b, -, rfl⟩ := List.mem_map.mp hp
    obtain ⟨b', -, heq⟩ := List.mem_map.mp hp'
    exact (Prod.mk.inj heq).1.symm

/-- No two matching pairs have one label. -/
theorem firstRepeat?_matchingPairs :
    firstRepeat? (fun p : Triple × Triple => (p.1.pair p.2).label) (left.matchingPairs right) =
      none := by
  refine firstRepeat?_eq_none_iff.mpr (nodup_matchingPairs.imp_of_mem fun {p q} hp hq hne heq => ?_)
  obtain ⟨hfirst, hsecond⟩ := eq_of_label_pair hp hq heq
  exact hne (Prod.ext hfirst hsecond)

/-! ## The object -/

/-- The elements of `object` are the matching pairs. -/
def IsPairing (left right : Morphism) (object : Graph) : Prop :=
  ∀ t, t ∈ object.elements ↔ ∃ a b, (a, b) ∈ left.matchingPairs right ∧ a.pair b = t

/-- The matching pairs, each as one triple. -/
def pairTriples (left right : Morphism) : List Triple :=
  (left.matchingPairs right).map fun p => p.1.pair p.2

theorem mem_pairTriples_iff {t : Triple} : t ∈ left.pairTriples right ↔
    ∃ a b, (a, b) ∈ left.matchingPairs right ∧ a.pair b = t := by
  simp [pairTriples]

/-- **The matching pairs make a graph.** -/
theorem exists_pullbackObject (hcod : left.codomain = right.codomain) (name : Name) :
    ∃ object, Graph.ofTriples name (left.pairTriples right) = .ok object ∧
      IsPairing left right object := by
  have hkind : ∀ t ∈ left.pairTriples right, t.IsNode ∨ t.IsEdge := by
    intro t ht
    obtain ⟨a, b, hab, rfl⟩ := mem_pairTriples_iff.mp ht
    obtain ⟨ha, -, hkind, -⟩ := mem_matchingPairs_iff.mp hab
    rcases left.domain.isNode_or_isEdge a ha with hnode | hedge
    · exact .inl (Triple.pair_isNode_iff.mpr ⟨hnode, hkind.mp hnode⟩)
    · exact .inr hedge.pair
  have hlabel : ∀ t ∈ left.pairTriples right, ∀ t' ∈ left.pairTriples right,
      t.label = t'.label → t = t' := by
    intro t ht t' ht' heq
    obtain ⟨a, b, hab, rfl⟩ := mem_pairTriples_iff.mp ht
    obtain ⟨a', b', hab', rfl⟩ := mem_pairTriples_iff.mp ht'
    obtain ⟨rfl, rfl⟩ := eq_of_label_pair hab hab' heq
    rfl
  have hends : ∀ t ∈ left.pairTriples right,
      Triple.node t.source ∈ left.pairTriples right ∧
        Triple.node t.target ∈ left.pairTriples right := by
    intro t ht
    obtain ⟨a, b, hab, rfl⟩ := mem_pairTriples_iff.mp ht
    obtain ⟨hsource, htarget⟩ := ends_mem_matchingPairs hcod hab
    exact ⟨mem_pairTriples_iff.mpr ⟨_, _, hsource, rfl⟩,
      mem_pairTriples_iff.mpr ⟨_, _, htarget, rfl⟩⟩
  obtain ⟨object, hobject⟩ := Graph.exists_ofTriples name hkind hlabel hends
  refine ⟨object, hobject, fun t => ?_⟩
  rw [(Graph.mem_elements_of_ofTriples hobject).2, mem_pairTriples_iff]

/-! ## The projections -/

/-- What takes every matching pair to one of its components is a morphism. `side` picks the component:
it goes to an element of the kind of the pair, and commutes with taking ends. -/
theorem exists_projection (hcod : left.codomain = right.codomain) (name : Name) {object g : Graph}
    (hobject : IsPairing left right object) (side : Triple × Triple → Triple)
    (hside : ∀ a b, (a, b) ∈ left.matchingPairs right →
      side (a, b) ∈ g.elements ∧ ((a.pair b).IsNode ↔ (side (a, b)).IsNode))
    (hsource : ∀ a b, (side (.node a.source, .node b.source)).label = (side (a, b)).source)
    (htarget : ∀ a b, (side (.node a.target, .node b.target)).label = (side (a, b)).target) :
    ∃ m, ofPairs name object g ((left.matchingPairs right).map fun p =>
        ((p.1.pair p.2).label, (side p).label)) = .ok m ∧ m.domain = object ∧ m.codomain = g ∧
      ∀ a b, (a, b) ∈ left.matchingPairs right →
        m.apply (a.pair b).label = some (side (a, b)).label := by
  have hmem : ∀ x y, (x, y) ∈ (left.matchingPairs right).map (fun p =>
      ((p.1.pair p.2).label, (side p).label)) ↔ ∃ a b, (a, b) ∈ left.matchingPairs right ∧
        (a.pair b).label = x ∧ (side (a, b)).label = y := by
    simp
  obtain ⟨f, hf⟩ : ∃ f, LabelMap.ofPairs ((left.matchingPairs right).map fun p =>
      ((p.1.pair p.2).label, (side p).label)) = .ok f := by
    refine LabelMap.exists_ofPairs fun x y y' hy hy' => ?_
    obtain ⟨a, b, hab, rfl, rfl⟩ := (hmem x y).mp hy
    obtain ⟨a', b', hab', hlabel, rfl⟩ := (hmem _ y').mp hy'
    obtain ⟨rfl, rfl⟩ := eq_of_label_pair hab' hab hlabel
    rfl
  -- the described map undoes the pairing, and with the pairing also that of the ends
  have hget : ∀ a b, (a, b) ∈ left.matchingPairs right →
      f.get? (a.pair b).label = some (side (a, b)).label := fun a b hab =>
    (LabelMap.ofPairs_eq_ok_iff.mp hf _ _).mpr ((hmem _ _).mpr ⟨a, b, hab, rfl, rfl⟩)
  have hhom : IsHom object g f := by
    refine ⟨fun x y hxy => ?_, fun t ht => ?_⟩
    · obtain ⟨a, b, hab, rfl, -⟩ := (hmem x y).mp ((LabelMap.ofPairs_eq_ok_iff.mp hf x y).mp hxy)
      exact Graph.label_mem_labels ((hobject _).mpr ⟨a, b, hab, rfl⟩)
    · obtain ⟨a, b, hab, rfl⟩ := (hobject t).mp ht
      obtain ⟨hab₁, hab₂⟩ := ends_mem_matchingPairs hcod hab
      obtain ⟨hg, hkind⟩ := hside a b hab
      have h₁ := hget _ _ hab₁
      have h₂ := hget _ _ hab₂
      rw [hsource a b] at h₁
      rw [htarget a b] at h₂
      exact ⟨side (a, b), hg, hkind, hget a b hab, h₁, h₂⟩
  obtain ⟨m, hm, hdom, hcodm, hmap⟩ := exists_ofPairs name hf hhom
  refine ⟨m, hm, hdom, hcodm, fun a b hab => ?_⟩
  rw [apply, hmap]
  exact hget a b hab

/-- A span over the matching pairs of two morphisms: both projections undo the pairing. -/
structure ProjectsPairs (left right : Morphism) (span : Span) : Prop where
  /-- The elements of the object are the matching pairs. -/
  object : IsPairing left right span.first.domain
  /-- Both projections start from the object. -/
  same_object : span.second.domain = span.first.domain
  /-- The first projection goes to the domain of the first morphism. -/
  first_codomain : span.first.codomain = left.domain
  /-- The second projection goes to the domain of the second morphism. -/
  second_codomain : span.second.codomain = right.domain
  /-- The first projection takes a pair to its first component. -/
  first_apply : ∀ a b, (a, b) ∈ left.matchingPairs right →
    span.first.apply (a.pair b).label = some a.label
  /-- The second projection takes a pair to its second component. -/
  second_apply : ∀ a b, (a, b) ∈ left.matchingPairs right →
    span.second.apply (a.pair b).label = some b.label

/-- **The pullback of two morphisms into one graph exists**, and consists of their matching pairs with
both projections. -/
theorem exists_pullback (hcod : left.codomain = right.codomain) :
    ∃ span, left.pullback right = .ok span ∧ ProjectsPairs left right span := by
  obtain ⟨object, hobject, hpairing⟩ := exists_pullbackObject hcod
    ⟨left.domain.name.text ++ "*" ++ right.domain.name.text⟩
  obtain ⟨first, hfirst, hdom, hcod₁, happly⟩ := exists_projection hcod
    ⟨left.name.text ++ "*" ++ right.name.text ++ "_1"⟩ hpairing (g := left.domain) Prod.fst
    (fun a b hab => by
      obtain ⟨ha, -, hkind, -⟩ := mem_matchingPairs_iff.mp hab
      exact ⟨ha, Triple.pair_isNode_iff.trans ⟨And.left, fun h => ⟨h, hkind.mp h⟩⟩⟩)
    (fun _ _ => rfl) fun _ _ => rfl
  obtain ⟨second, hsecond, hdom', hcod₂, happly'⟩ := exists_projection hcod
    ⟨left.name.text ++ "*" ++ right.name.text ++ "_2"⟩ hpairing (g := right.domain) Prod.snd
    (fun a b hab => by
      obtain ⟨-, hb, hkind, -⟩ := mem_matchingPairs_iff.mp hab
      exact ⟨hb, Triple.pair_isNode_iff.trans ⟨And.right, fun h => ⟨hkind.mpr h, h⟩⟩⟩)
    (fun _ _ => rfl) fun _ _ => rfl
  refine ⟨⟨first, second⟩, ?_, ?_⟩
  · unfold pairTriples at hobject
    unfold pullback
    rw [if_neg fun h => h hcod]
    simp only [firstRepeat?_matchingPairs, hobject, hfirst, hsecond, bind, Except.bind, pure,
      Except.pure]
  · exact ⟨hdom ▸ hpairing, hdom'.trans hdom.symm, hcod₁, hcod₂, happly, happly'⟩

end Morphism

end GraphHom
