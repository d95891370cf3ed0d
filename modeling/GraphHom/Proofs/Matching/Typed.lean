import GraphHom.Proofs.Matching.Solving
import GraphHom.Proofs.Morphism.Pullback
import GraphHom.Proofs.Repetition

/-!
# Matches of typed graphs

Two graphs typed over one type graph are matched by maps that keep the types (`IsTypedMatch`). The
matcher goes by way of the pullback of the typings: what it offers a pattern element are the second
components of the pairs that have this element as their first. These are just the host elements of its
kind and type (`mem_spanCandidates_iff`), each once, so that the problem has the typed matches as its
solutions, and no step on the way can fail (`allTypedMatches_listsMaps`).
-/

namespace GraphHom

/-- A typed match preserves structure and gives every label the type it has in the pattern. -/
structure IsTypedMatch (pattern host : Morphism) (f : LabelMap) : Prop where
  /-- The map preserves structure. -/
  isHom : IsHom pattern.domain host.domain f
  /-- The image of a label has the type of the label. -/
  keepsTypes : ∀ x ∈ pattern.domain.labels, (f.get? x).bind host.apply = pattern.apply x

namespace Morphism

/-! ## Candidates from a span -/

section Candidates

variable {m relevant projection pattern host : Morphism} {span : Span} {t u e : Triple}

theorem mem_distinctImages_iff {elements : List Triple} :
    u ∈ m.distinctImages elements ↔ ∃ e ∈ elements, m.image e = some u := by
  rw [distinctImages, mem_distinct_iff, List.mem_filterMap]

/-- What `formulateTyped` offers an element: the projections of the elements over it. -/
def spanCandidates (relevant projection : Morphism) (t : Triple) : List Triple :=
  projection.distinctImages (if t.IsNode then relevant.nodesOver t.label else relevant.edgesOver t)

theorem formulateTyped_eq {injective : Bool} : formulateTyped relevant projection injective =
    Problem.build (MatchProblem.matchVars relevant.codomain (spanCandidates relevant projection))
      (MatchProblem.additions relevant.codomain injective) := by
  rw [← MatchProblem.build_eq, formulateTyped]
  congr 1
  · refine List.map_congr_left fun t ht => ?_
    rw [spanCandidates, if_pos (Graph.mem_nodes_iff.mp ht).2]
  · refine List.map_congr_left fun t ht => ?_
    rw [spanCandidates, if_neg (Graph.mem_edges_iff.mp ht).2.not_isNode]

/-- Over an element lie the elements of its kind that go to it. -/
theorem mem_over_iff : (e ∈ if t.IsNode then relevant.nodesOver t.label else relevant.edgesOver t) ↔
    e ∈ relevant.domain.elements ∧ (e.IsNode ↔ t.IsNode) ∧
      relevant.apply e.label = some t.label := by
  by_cases hnode : t.IsNode
  · rw [if_pos hnode, mem_nodesOver_iff, Graph.mem_nodes_iff, and_assoc]
    simp [hnode]
  · rw [if_neg hnode, mem_edgesOver_iff, Graph.mem_edges_iff, and_assoc]
    refine and_congr_right fun he => ?_
    rw [Graph.isEdge_iff_not_isNode he]
    simp [hnode]

/-- What is offered an element: the images of those over it that are elements of both domains. -/
theorem mem_spanCandidates_iff_exists : u ∈ spanCandidates relevant projection t ↔
    ∃ e, (e ∈ relevant.domain.elements ∧ (e.IsNode ↔ t.IsNode) ∧
        relevant.apply e.label = some t.label) ∧
      e ∈ projection.domain.elements ∧ u ∈ projection.codomain.elements ∧
        projection.apply e.label = some u.label := by
  simp only [spanCandidates, mem_distinctImages_iff, mem_over_iff, image_eq_some_iff]

/-- A morphism sends an element to one of its kind. -/
theorem isNode_iff_of_apply (he : e ∈ m.domain.elements) (hu : u ∈ m.codomain.elements)
    (h : m.apply e.label = some u.label) : e.IsNode ↔ u.IsNode :=
  (m.isHom.exists_image_of_get? he hu h).1

/-- Whatever the two morphisms are, what is offered are host elements of the right kind, each once. -/
theorem offers_spanCandidates (relevant projection : Morphism) :
    MatchProblem.Offers relevant.codomain projection.codomain
      (spanCandidates relevant projection) where
  mem t _ u hu := by
    obtain ⟨e, ⟨-, hkind, -⟩, he, huh, happly⟩ := mem_spanCandidates_iff_exists.mp hu
    exact ⟨huh, hkind.symm.trans (isNode_iff_of_apply he huh happly)⟩
  nodup _ _ := nodup_distinct

/-- **The candidates are the host elements of the right kind and type.** -/
theorem mem_spanCandidates_iff (h : ProjectsPairs pattern host span)
    (ht : t ∈ pattern.domain.elements) :
    u ∈ spanCandidates span.first span.second t ↔ (t, u) ∈ pattern.matchingPairs host := by
  rw [mem_spanCandidates_iff_exists]
  constructor
  · rintro ⟨e, ⟨he, -, hfirst⟩, -, hu, hsecond⟩
    -- an element over `t` is a pair with `t` in front, and its projection is the other component
    obtain ⟨a, b, hab, rfl⟩ := (h.object e).mp he
    obtain ⟨ha, hb, -⟩ := mem_matchingPairs_iff.mp hab
    rw [h.first_apply a b hab, Option.some.injEq] at hfirst
    rw [h.second_apply a b hab, Option.some.injEq] at hsecond
    rw [h.second_codomain] at hu
    rwa [← Graph.eq_of_label ha ht hfirst, ← Graph.eq_of_label hb hu hsecond]
  · intro htu
    obtain ⟨-, hu, hkind, -⟩ := mem_matchingPairs_iff.mp htu
    have hmem : t.pair u ∈ span.first.domain.elements := (h.object _).mpr ⟨t, u, htu, rfl⟩
    refine ⟨t.pair u, ⟨hmem, ?_, h.first_apply t u htu⟩, ?_, ?_, h.second_apply t u htu⟩
    · rw [Triple.pair_isNode_iff]
      exact ⟨And.left, fun hnode => ⟨hnode, hkind.mp hnode⟩⟩
    · rw [h.same_object]
      exact hmem
    · rw [h.second_codomain]
      exact hu

/-- The structure-preserving maps that keep to the candidates are the typed matches. -/
theorem isTypedMatch_iff (h : ProjectsPairs pattern host span) {f : LabelMap} :
    IsMatch pattern.domain host.domain false f ∧
        MatchProblem.KeepsTo pattern.domain host.domain
          (spanCandidates span.first span.second) f ↔
      IsTypedMatch pattern host f := by
  constructor
  · rintro ⟨hf, hkeeps⟩
    refine ⟨hf.isHom, fun x hx => ?_⟩
    obtain ⟨t, ht, rfl⟩ := Graph.mem_labels_iff.mp hx
    obtain ⟨u, hu, -, hlabel, -⟩ := hf.isHom.exists_image t ht
    have hpair := (mem_spanCandidates_iff h ht).mp (hkeeps t ht u hu hlabel)
    obtain ⟨-, -, -, happly⟩ := mem_matchingPairs_iff.mp hpair
    rw [hlabel, Option.bind_some, happly]
  · rintro ⟨hhom, htypes⟩
    refine ⟨⟨hhom, fun hfalse => by cases hfalse⟩, fun t ht u hu hlabel => ?_⟩
    have htype := htypes t.label (Graph.label_mem_labels ht)
    rw [hlabel, Option.bind_some] at htype
    exact (mem_spanCandidates_iff h ht).mpr (mem_matchingPairs_iff.mpr
      ⟨ht, hu, (hhom.exists_image_of_get? ht hu hlabel).1, htype.symm⟩)

end Candidates

end Morphism

/-! ## The matcher -/

namespace Matcher

variable {m : Matcher} {pattern host : Morphism}

theorem allTypedMatches_of_not (h : pattern.codomain ≠ host.codomain ∨ pattern.domain.isEmpty = true) :
    (m.allTypedMatches pattern host).1 = .ok [] := by
  unfold allTypedMatches
  rw [if_pos]
  simpa using h

/-- Typed matching names the solutions of a constraint problem that depends on nothing but the
typings. -/
theorem exists_typedPairs (hcod : pattern.codomain = host.codomain)
    (hne : pattern.domain.isEmpty = false) :
    ∃ l, (∀ names : NameSupply, ∃ ms,
        (names.morphisms pattern.domain host.domain l).1 = .ok ms ∧
        ListsMaps pattern.domain host.domain (IsTypedMatch pattern host) ms) ∧
      ∀ m : Matcher, m.allTypedMatches pattern host =
        ((m.solved.morphisms pattern.domain host.domain l).1.mapError .construction,
          { m with solved := (m.solved.morphisms pattern.domain host.domain l).2 }) := by
  obtain ⟨span, hspan, hpairs⟩ := Morphism.exists_pullback hcod
  have hoffers := Morphism.offers_spanCandidates span.first span.second
  rw [hpairs.first_codomain, hpairs.second_codomain] at hoffers
  obtain ⟨p, hp, hsolved⟩ := MatchProblem.exists_solved hoffers false
  rw [← hpairs.first_codomain, ← Morphism.formulateTyped_eq] at hp
  refine ⟨p.solveAll.map MatchProblem.labelPairs, fun names => ?_, fun m => ?_⟩
  · obtain ⟨ms, hms, hlists⟩ := hsolved names
    exact ⟨ms, hms, hlists.congr fun f => Morphism.isTypedMatch_iff hpairs⟩
  · unfold allTypedMatches
    rw [if_neg (by simp [hcod, hne]), hspan]
    simp only [hp]

theorem exists_allTypedMatches (hcod : pattern.codomain = host.codomain)
    (hne : pattern.domain.isEmpty = false) :
    ∃ ms, (m.allTypedMatches pattern host).1 = .ok ms ∧
      ListsMaps pattern.domain host.domain (IsTypedMatch pattern host) ms := by
  obtain ⟨l, hlisted, hcall⟩ := exists_typedPairs hcod hne
  obtain ⟨ms, hms, hlists⟩ := hlisted m.solved
  refine ⟨ms, ?_, hlists⟩
  rw [hcall, hms]
  rfl

/-- **Typed matching finds all typed matches.** It never fails. Over one type graph, and of a pattern
that is not empty, it finds the structure-preserving maps that keep the types, each once; otherwise it
finds nothing. -/
theorem allTypedMatches_listsMaps (m : Matcher) (pattern host : Morphism) :
    ∃ ms, (m.allTypedMatches pattern host).1 = .ok ms ∧
      (pattern.codomain = host.codomain ∧ pattern.domain.isEmpty = false →
        ListsMaps pattern.domain host.domain (IsTypedMatch pattern host) ms) ∧
      (¬(pattern.codomain = host.codomain ∧ pattern.domain.isEmpty = false) → ms = []) := by
  by_cases hcod : pattern.codomain = host.codomain
  · cases hempty : pattern.domain.isEmpty with
    | true =>
      refine ⟨[], allTypedMatches_of_not (.inr hempty), fun h => ?_, fun _ => rfl⟩
      cases h.2
    | false =>
      obtain ⟨ms, hms, hlists⟩ := exists_allTypedMatches (m := m) hcod hempty
      exact ⟨ms, hms, fun _ => hlists, fun h => absurd ⟨hcod, rfl⟩ h⟩
  · exact ⟨[], allTypedMatches_of_not (.inl hcod), fun h => absurd h.1 hcod, fun _ => rfl⟩

/-- Nodes of one type whose labels hold the separators of pair names. -/
theorem allTypedMatches_listsMaps_separators :
    ∃ type patternGraph hostGraph pattern host ms,
      Graph.ofEntries ⟨"T"⟩ [.node ⟨"t"⟩] = .ok type ∧
      Graph.ofEntries ⟨"P"⟩ [.node ⟨"a"⟩, .node ⟨"a,b"⟩] = .ok patternGraph ∧
      Graph.ofEntries ⟨"H"⟩ [.node ⟨"b,c"⟩, .node ⟨"c"⟩] = .ok hostGraph ∧
      Morphism.ofPairs ⟨"p"⟩ patternGraph type [(⟨"a"⟩, ⟨"t"⟩), (⟨"a,b"⟩, ⟨"t"⟩)] = .ok pattern ∧
      Morphism.ofPairs ⟨"h"⟩ hostGraph type [(⟨"b,c"⟩, ⟨"t"⟩), (⟨"c"⟩, ⟨"t"⟩)] = .ok host ∧
      (pattern.codomain = host.codomain ∧ pattern.domain.isEmpty = false) ∧
      ((Matcher.new .default).allTypedMatches pattern host).1 = .ok ms ∧
      ListsMaps pattern.domain host.domain (IsTypedMatch pattern host) ms := by
  obtain ⟨ms, hms, hlists, -⟩ := allTypedMatches_listsMaps (Matcher.new .default) _ _
  exact ⟨_, _, _, _, _, ms, rfl, rfl, rfl, rfl, rfl, ⟨rfl, rfl⟩, hms, hlists ⟨rfl, rfl⟩⟩

end Matcher

end GraphHom
