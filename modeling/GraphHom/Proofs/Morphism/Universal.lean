import GraphHom.Graph.Entry
import GraphHom.Proofs.Morphism.Pullback

/-!
# The universal property of the pullback

Two morphisms into one graph have a pullback (`Morphism.IsPullback`): a span that makes a commuting
square with them, and through which every other such pair of morphisms goes in exactly one way. The
span that `Morphism.pullback` builds is one (`Morphism.pullback_isPullback`).

What goes through the span takes a label to the name of the pair of its two images
(`ProjectsPairs.get?_eq_some_iff`). That there is such a map needs that the pair of two images is in
the object; that there is only one needs that no two pairs have one name.
-/

namespace GraphHom

namespace Morphism

/-! ## Cones -/

/-- Two morphisms out of one graph, followed by `left` and by `right`, are equal. -/
structure IsCone (left right f g : Morphism) : Prop where
  /-- They start from one graph. -/
  same_domain : g.domain = f.domain
  /-- The first goes to where `left` starts. -/
  first_codomain : f.codomain = left.domain
  /-- The second goes to where `right` starts. -/
  second_codomain : g.codomain = right.domain
  /-- Each label goes to one label both ways. -/
  commutes : ∀ x ∈ f.domain.labels, ∃ c ∈ left.codomain.labels,
    (f.apply x).bind left.apply = some c ∧ (g.apply x).bind right.apply = some c

/-- The map `h` leads from the domain of `f` and `g` to the object of the span, and is `f` and `g` when
followed by the projections. -/
structure Factors (span : Span) (f g : Morphism) (h : LabelMap) : Prop where
  /-- The map preserves structure. -/
  isHom : IsHom f.domain span.first.domain h
  /-- Followed by the first projection it is `f`. -/
  first : ∀ x ∈ f.domain.labels, (h.get? x).bind span.first.apply = f.apply x
  /-- Followed by the second projection it is `g`. -/
  second : ∀ x ∈ f.domain.labels, (h.get? x).bind span.second.apply = g.apply x

/-- The span is a pullback of `left` and `right`: it is a cone, and every cone goes through it in
exactly one way. -/
structure IsPullback (left right : Morphism) (span : Span) : Prop where
  /-- The projections make a cone. -/
  isCone : IsCone left right span.first span.second
  /-- Exactly one map leads from any cone to the span. -/
  existsUnique : ∀ f g : Morphism, IsCone left right f g → ∃! h, Factors span f g h

section

variable {left right f g : Morphism} {span : Span} {h h' : LabelMap} {t u v : Triple} {x y : Name}

/-- The images of an element under the two sides of a cone are a matching pair. -/
theorem IsCone.mem_matchingPairs (hc : IsCone left right f g) (hx : x ∈ f.domain.labels)
    (hu : u ∈ f.codomain.elements) (hv : v ∈ g.codomain.elements) (hkind : t.IsNode ↔ u.IsNode)
    (hkind' : t.IsNode ↔ v.IsNode) (hf : f.apply x = some u.label) (hg : g.apply x = some v.label) :
    (u, v) ∈ left.matchingPairs right := by
  obtain ⟨c, -, hleft, hright⟩ := hc.commutes x hx
  rw [hf, Option.bind_some] at hleft
  rw [hg, Option.bind_some] at hright
  exact mem_matchingPairs_iff.mpr ⟨hc.first_codomain ▸ hu, hc.second_codomain ▸ hv,
    hkind.symm.trans hkind', hleft.trans hright.symm⟩

/-- Every element has two images under the sides of a cone, and they are a matching pair. -/
theorem IsCone.exists_images (hc : IsCone left right f g) (ht : t ∈ f.domain.elements) :
    ∃ u v, (u, v) ∈ left.matchingPairs right ∧ (t.IsNode ↔ u.IsNode) ∧
      f.apply t.label = some u.label ∧ g.apply t.label = some v.label ∧
      f.apply t.source = some u.source ∧ g.apply t.source = some v.source ∧
      f.apply t.target = some u.target ∧ g.apply t.target = some v.target := by
  obtain ⟨u, hu, hkind, hlabel, hsource, htarget⟩ := exists_image ht
  obtain ⟨v, hv, hkind', hlabel', hsource', htarget'⟩ := exists_image (hc.same_domain.symm ▸ ht)
  have hmem := hc.mem_matchingPairs (Graph.label_mem_labels ht) hu hv hkind hkind' hlabel hlabel'
  exact ⟨u, v, hmem, hkind, hlabel, hlabel', hsource, hsource', htarget, htarget'⟩

namespace ProjectsPairs

/-- **What goes through the span is known.** It takes a label to the pair of its images. -/
theorem get?_eq_some_iff (hs : ProjectsPairs left right span) (hh : Factors span f g h) :
    h.get? x = some y ↔
      x ∈ f.domain.labels ∧ ∃ a b, f.apply x = some a ∧ g.apply x = some b ∧ y = Name.pair a b := by
  have himage : ∀ x ∈ f.domain.labels, ∃ a b, f.apply x = some a ∧ g.apply x = some b ∧
      h.get? x = some (Name.pair a b) := by
    intro x hx
    obtain ⟨t, ht, rfl⟩ := Graph.mem_labels_iff.mp hx
    obtain ⟨e, he, -, hlabel, -⟩ := hh.isHom.exists_image t ht
    -- the image is a pair, and the projections tell of which labels
    obtain ⟨a, b, hab, rfl⟩ := (hs.object e).mp he
    have hfirst := hh.first t.label hx
    have hsecond := hh.second t.label hx
    rw [hlabel, Option.bind_some, hs.first_apply a b hab] at hfirst
    rw [hlabel, Option.bind_some, hs.second_apply a b hab] at hsecond
    exact ⟨a.label, b.label, hfirst.symm, hsecond.symm, hlabel⟩
  constructor
  · intro hxy
    have hx := hh.isHom.mem_labels x y hxy
    obtain ⟨a, b, ha, hb, hpair⟩ := himage x hx
    exact ⟨hx, a, b, ha, hb, Option.some.inj (hxy.symm.trans hpair)⟩
  · rintro ⟨hx, a, b, ha, hb, rfl⟩
    obtain ⟨a', b', ha', hb', hpair⟩ := himage x hx
    rw [ha, Option.some.injEq] at ha'
    rw [hb, Option.some.injEq] at hb'
    rw [hpair, ha', hb']

theorem eq_of_factors (hs : ProjectsPairs left right span) (hh : Factors span f g h)
    (hh' : Factors span f g h') : h' = h := by
  refine LabelMap.ext_get? fun x => Option.ext fun y => ?_
  rw [hs.get?_eq_some_iff hh', hs.get?_eq_some_iff hh]

/-- Every label with the pair of its images. -/
def pairedImages (f g : Morphism) : List (Name × Name) :=
  f.domain.labels.filterMap fun x =>
    (f.apply x).bind fun a => (g.apply x).map fun b => (x, Name.pair a b)

theorem mem_pairedImages_iff : (x, y) ∈ pairedImages f g ↔
    x ∈ f.domain.labels ∧ ∃ a b, f.apply x = some a ∧ g.apply x = some b ∧ y = Name.pair a b := by
  simp only [pairedImages, List.mem_filterMap, Option.bind_eq_some_iff, Option.map_eq_some_iff]
  constructor
  · rintro ⟨x', hx, a, ha, b, hb, heq⟩
    cases heq
    exact ⟨hx, a, b, ha, hb, rfl⟩
  · rintro ⟨hx, a, b, ha, hb, rfl⟩
    exact ⟨x, hx, a, ha, b, hb, rfl⟩

/-- A cone leads to the span. -/
theorem exists_factors (hs : ProjectsPairs left right span) (hc : IsCone left right f g) :
    ∃ h, Factors span f g h := by
  have hone : ∀ x y y', (x, y) ∈ pairedImages f g → (x, y') ∈ pairedImages f g → y = y' := by
    intro x y y' hy hy'
    obtain ⟨-, a, b, ha, hb, rfl⟩ := mem_pairedImages_iff.mp hy
    obtain ⟨-, a', b', ha', hb', rfl⟩ := mem_pairedImages_iff.mp hy'
    rw [Option.some.inj (ha.symm.trans ha'), Option.some.inj (hb.symm.trans hb')]
  obtain ⟨h, hh⟩ := LabelMap.exists_ofPairs hone
  have hget : ∀ x y, h.get? x = some y ↔ x ∈ f.domain.labels ∧
      ∃ a b, f.apply x = some a ∧ g.apply x = some b ∧ y = Name.pair a b := fun x y =>
    (LabelMap.ofPairs_eq_ok_iff.mp hh x y).trans mem_pairedImages_iff
  refine ⟨h, ⟨fun x y hxy => ((hget x y).mp hxy).1, fun t ht => ?_⟩, fun x hx => ?_, fun x hx => ?_⟩
  · obtain ⟨u, v, huv, hkind, hlabel, hlabel', hsource, hsource', htarget, htarget'⟩ :=
      hc.exists_images ht
    obtain ⟨-, -, huvkind, -⟩ := mem_matchingPairs_iff.mp huv
    obtain ⟨hs₁, hs₂⟩ := f.domain.ends_mem t ht
    refine ⟨u.pair v, (hs.object _).mpr ⟨u, v, huv, rfl⟩, ?_, ?_, ?_, ?_⟩
    · rw [Triple.pair_isNode_iff, hkind]
      exact ⟨fun hu => ⟨hu, huvkind.mp hu⟩, And.left⟩
    · exact (hget _ _).mpr ⟨Graph.label_mem_labels ht, _, _, hlabel, hlabel', rfl⟩
    · exact (hget _ _).mpr ⟨Graph.label_mem_labels hs₁, _, _, hsource, hsource', rfl⟩
    · exact (hget _ _).mpr ⟨Graph.label_mem_labels hs₂, _, _, htarget, htarget', rfl⟩
  · obtain ⟨t, ht, rfl⟩ := Graph.mem_labels_iff.mp hx
    obtain ⟨u, v, huv, -, hlabel, hlabel', -⟩ := hc.exists_images ht
    have hpair := (hget _ _).mpr ⟨hx, _, _, hlabel, hlabel', rfl⟩
    rw [hpair, Option.bind_some, hlabel]
    exact hs.first_apply u v huv
  · obtain ⟨t, ht, rfl⟩ := Graph.mem_labels_iff.mp hx
    obtain ⟨u, v, huv, -, hlabel, hlabel', -⟩ := hc.exists_images ht
    have hpair := (hget _ _).mpr ⟨hx, _, _, hlabel, hlabel', rfl⟩
    rw [hpair, Option.bind_some, hlabel']
    exact hs.second_apply u v huv

/-- The projections agree when followed by the two morphisms. -/
theorem isCone (hs : ProjectsPairs left right span) :
    IsCone left right span.first span.second where
  same_domain := hs.same_object
  first_codomain := hs.first_codomain
  second_codomain := hs.second_codomain
  commutes p hp := by
    obtain ⟨e, he, rfl⟩ := Graph.mem_labels_iff.mp hp
    obtain ⟨a, b, hab, rfl⟩ := (hs.object e).mp he
    obtain ⟨ha, -, -, happly⟩ := mem_matchingPairs_iff.mp hab
    obtain ⟨c, hc, -, hlabel, -⟩ := exists_image ha
    refine ⟨c.label, Graph.label_mem_labels hc, ?_, ?_⟩
    · rw [hs.first_apply a b hab, Option.bind_some, hlabel]
    · rw [hs.second_apply a b hab, Option.bind_some, ← happly, hlabel]

/-- A span over the matching pairs is a pullback. -/
theorem isPullback (hs : ProjectsPairs left right span) : IsPullback left right span where
  isCone := hs.isCone
  existsUnique f g hc := by
    obtain ⟨h, hh⟩ := hs.exists_factors hc
    exact ⟨h, hh, fun h' hh' => hs.eq_of_factors hh hh'⟩

end ProjectsPairs

end

/-- **Two morphisms have a pullback exactly if they go to one graph.** Otherwise they are refused for
that reason, and for no other. -/
theorem pullback_isPullback (left right : Morphism) :
    (left.codomain = right.codomain →
      ∃ span, left.pullback right = .ok span ∧ IsPullback left right span) ∧
    (left.codomain.name ≠ right.codomain.name ∨
        left.codomain.elements ≠ right.codomain.elements →
      left.pullback right = .error (.codomainMismatch left.name right.name)) := by
  refine ⟨fun hcod => ?_, fun hne => ?_⟩
  · obtain ⟨span, hspan, hpairs⟩ := exists_pullback hcod
    exact ⟨span, hspan, hpairs.isPullback⟩
  · have hcod : left.codomain ≠ right.codomain := by
      rw [ne_eq, Graph.eq_iff, not_and_or]
      exact hne
    unfold pullback
    rw [if_pos hcod]

/-- Nodes and edges whose labels hold the separators of pair names, over a loop; and a morphism to a
graph with the same elements under another name. -/
theorem pullback_isPullback_loop :
    ∃ type other leftGraph rightGraph left right stray,
      Graph.ofEntries ⟨"T"⟩ [.edge ⟨⟨"t"⟩, ⟨"e"⟩, ⟨"t"⟩⟩] = .ok type ∧
      Graph.ofEntries ⟨"U"⟩ [.edge ⟨⟨"t"⟩, ⟨"e"⟩, ⟨"t"⟩⟩] = .ok other ∧
      Graph.ofEntries ⟨"A"⟩ [.edge ⟨⟨"x"⟩, ⟨"a"⟩, ⟨"x,y"⟩⟩] = .ok leftGraph ∧
      Graph.ofEntries ⟨"B"⟩ [.node ⟨"y,z"⟩, .edge ⟨⟨"z"⟩, ⟨"b"⟩, ⟨"z"⟩⟩] = .ok rightGraph ∧
      ofPairs ⟨"l"⟩ leftGraph type
        [(⟨"x"⟩, ⟨"t"⟩), (⟨"x,y"⟩, ⟨"t"⟩), (⟨"a"⟩, ⟨"e"⟩)] = .ok left ∧
      ofPairs ⟨"r"⟩ rightGraph type
        [(⟨"y,z"⟩, ⟨"t"⟩), (⟨"z"⟩, ⟨"t"⟩), (⟨"b"⟩, ⟨"e"⟩)] = .ok right ∧
      ofPairs ⟨"s"⟩ rightGraph other
        [(⟨"y,z"⟩, ⟨"t"⟩), (⟨"z"⟩, ⟨"t"⟩), (⟨"b"⟩, ⟨"e"⟩)] = .ok stray ∧
      left.codomain = right.codomain ∧
      (∃ span, left.pullback right = .ok span ∧ IsPullback left right span) ∧
      left.codomain.name ≠ stray.codomain.name ∧
      left.pullback stray = .error (.codomainMismatch left.name stray.name) := by
  refine ⟨_, _, _, _, _, _, _, rfl, rfl, rfl, rfl, rfl, rfl, rfl, rfl, ?_, ?_, ?_⟩
  · exact (pullback_isPullback _ _).1 rfl
  · decide
  · exact (pullback_isPullback _ _).2 (.inl (by decide))

end Morphism

end GraphHom
