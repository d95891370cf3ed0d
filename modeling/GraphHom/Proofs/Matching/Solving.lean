import GraphHom.Graph.Entry
import GraphHom.Matching.Matcher
import GraphHom.Proofs.Matching.Candidates

/-!
# Matches by solving

The satisfying assignments of a match's problem are the matches that keep to its candidates: an
assignment, read as label pairs, describes such a match (`isHom_of_satisfying`,
`injective_of_satisfying`, `keepsTo_of_satisfying`), and every such match is described by the
assignment that gives each pattern element its image (`assignmentOfMap_satisfying`).

With the solver this gives `exists_solved`: the problem can be built, and the morphisms named from its
solutions list the matches within the candidates. Where every host element of the right kind is a
candidate these are all matches, and the matcher that solves finds them
(`allMatches_constraints_listsMaps`).
-/

namespace GraphHom

namespace MatchProblem

/-! ## From assignments to matches -/

section Satisfying

variable {pattern host : Graph} {cand : Triple → List Triple} {injective : Bool}
variable {A : Assignment MatchVar Triple} {f : LabelMap} {t u : Triple}

/-- The ends of a pattern element go to the ends of its value: of a node because it is its own end, of
an edge because the incidences are satisfied. -/
theorem get?_endName (hoffers : Offers pattern host cand)
    (hA : IsValued (matchVars pattern cand) A)
    (hsat : ∀ a ∈ additions pattern injective, a.SatisfiedBy A)
    (hf : LabelMap.ofPairs (labelPairs A) = .ok f) (ht : t ∈ pattern.elements)
    (htu : (t.var, u) ∈ A) (e : EdgeEnd) : f.get? (t.endName e) = some (u.endName e) := by
  obtain ⟨hu, hkind⟩ := hoffers.mem t ht u (mem_cand_of_mem hA ht htu)
  rcases pattern.isNode_or_isEdge t ht with hnode | hedge
  · -- a node, and so its value, is its own end
    have hlabel := (get?_eq_some_iff_mem hoffers hA hf ht hu).mpr htu
    rw [Triple.endName_of_isNode hnode, Triple.endName_of_isNode (hkind.mp hnode)]
    exact hlabel
  · -- the incidence of an edge ties the end of its value to the value of its end
    have hmem : .constraint (Incidence.constraint ⟨.edge t.label, .node (t.endName e), e⟩) ∈
        additions pattern injective :=
      constraint_mem_additions_iff.mpr ⟨t, Graph.mem_edges_iff.mpr ⟨ht, hedge⟩, e, rfl⟩
    obtain ⟨a, b, ha, hb, hholds⟩ := hsat _ hmem
    have ha' : (t.var, a) ∈ A := by
      rw [Triple.var_of_isEdge hedge]
      exact ha
    have hb' : ((Triple.node (t.endName e)).var, b) ∈ A := by
      rw [Triple.var_of_isNode Triple.isNode_node]
      exact hb
    have hend := Graph.endName_mem ht e
    obtain ⟨hbh, -⟩ := hoffers.mem _ hend b (mem_cand_of_mem hA hend hb')
    have hlabel := (get?_eq_some_iff_mem hoffers hA hf hend hbh).mpr hb'
    have hincident : a.endName e = b.label := of_decide_eq_true hholds
    rw [← value_unique hA ha' htu, hincident]
    exact hlabel

theorem isHom_of_satisfying (hoffers : Offers pattern host cand)
    (hA : IsValued (matchVars pattern cand) A)
    (hsat : ∀ a ∈ additions pattern injective, a.SatisfiedBy A)
    (hf : LabelMap.ofPairs (labelPairs A) = .ok f) : IsHom pattern host f where
  mem_labels x y hxy := by
    obtain ⟨v, u, hu, rfl, -⟩ := mem_labelPairs_iff.mp ((LabelMap.ofPairs_eq_ok_iff.mp hf x y).mp hxy)
    obtain ⟨t, ht, rfl, -⟩ := exists_of_mem hA hu
    rw [Triple.label_var]
    exact Graph.label_mem_labels ht
  exists_image t ht := by
    obtain ⟨u, hcand, hu⟩ := exists_value hA ht
    obtain ⟨huh, hkind⟩ := hoffers.mem t ht u hcand
    exact ⟨u, huh, hkind, (get?_eq_some_iff_mem hoffers hA hf ht huh).mpr hu,
      get?_endName hoffers hA hsat hf ht hu .source, get?_endName hoffers hA hsat hf ht hu .target⟩

/-- Different values within each of the two groups are different images altogether, since a node and
an edge of the host have different labels. -/
theorem injective_of_satisfying (hoffers : Offers pattern host cand)
    (hA : IsValued (matchVars pattern cand) A)
    (hsat : ∀ a ∈ additions pattern true, a.SatisfiedBy A)
    (hf : LabelMap.ofPairs (labelPairs A) = .ok f) : f.Injective := by
  have hvalue : ∀ x y, f.get? x = some y → ∃ t ∈ pattern.elements, ∃ u ∈ host.elements,
      (t.IsNode ↔ u.IsNode) ∧ (t.var, u) ∈ A ∧ t.label = x ∧ u.label = y := by
    intro x y hxy
    obtain ⟨v, u, hu, rfl, rfl⟩ :=
      mem_labelPairs_iff.mp ((LabelMap.ofPairs_eq_ok_iff.mp hf x y).mp hxy)
    obtain ⟨t, ht, rfl, hcand⟩ := exists_of_mem hA hu
    obtain ⟨huh, hkind⟩ := hoffers.mem t ht u hcand
    exact ⟨t, ht, u, huh, hkind, hu, Triple.label_var.symm, rfl⟩
  intro x x' y hx hx'
  obtain ⟨t, ht, u, hu, hkind, htu, rfl, rfl⟩ := hvalue x y hx
  obtain ⟨t', ht', u', hu', hkind', htu', rfl, hlabel⟩ := hvalue x' _ hx'
  have hsame : u' = u := Graph.eq_of_label hu' hu hlabel
  subst hsame
  by_contra hne
  have hvar : t.var ≠ t'.var := fun h => hne (by rw [eq_of_var_eq ht ht' h])
  -- with one image, both elements are of its kind, and so in the group of that kind
  have hgroup : ∃ ids, .allDistinct ids ∈ additions pattern true ∧ t.var ∈ ids ∧ t'.var ∈ ids := by
    by_cases hnode : t.IsNode
    · refine ⟨_, allDistinct_mem_additions_iff.mpr ⟨rfl, .inl rfl⟩, ?_, ?_⟩
      · exact List.mem_map_of_mem (Graph.mem_nodes_iff.mpr ⟨ht, hnode⟩)
      · exact List.mem_map_of_mem (Graph.mem_nodes_iff.mpr ⟨ht', hkind'.mpr (hkind.mp hnode)⟩)
    · have hedge := (Graph.isEdge_iff_not_isNode ht).mpr hnode
      have hedge' := (Graph.isEdge_iff_not_isNode ht').mpr fun h => hnode (hkind.mpr (hkind'.mp h))
      refine ⟨_, allDistinct_mem_additions_iff.mpr ⟨rfl, .inr rfl⟩, ?_, ?_⟩
      · exact List.mem_map_of_mem (Graph.mem_edges_iff.mpr ⟨ht, hedge⟩)
      · exact List.mem_map_of_mem (Graph.mem_edges_iff.mpr ⟨ht', hedge'⟩)
  obtain ⟨ids, hids, hmem, hmem'⟩ := hgroup
  exact hsat _ hids _ hmem _ hmem' hvar _ _ htu htu' rfl

theorem keepsTo_of_satisfying (hoffers : Offers pattern host cand)
    (hA : IsValued (matchVars pattern cand) A) (hf : LabelMap.ofPairs (labelPairs A) = .ok f) :
    KeepsTo pattern host cand f := by
  intro t ht u hu hlabel
  exact mem_cand_of_mem hA ht ((get?_eq_some_iff_mem hoffers hA hf ht hu).mp hlabel)

/-- An assignment is recovered from the map it describes. -/
theorem eq_assignmentOfMap (hoffers : Offers pattern host cand)
    (hA : IsValued (matchVars pattern cand) A) (hf : LabelMap.ofPairs (labelPairs A) = .ok f) :
    A = assignmentOfMap pattern host f := by
  obtain ⟨hlen, hget⟩ := List.forall₂_iff_get.mp (isValued_iff.mp hA)
  refine List.ext_getElem (by simp [assignmentOfMap, hlen]) fun i hi hi' => ?_
  have hit : i < (order pattern).length := hlen ▸ hi
  obtain ⟨hvar, hcand⟩ := hget i hit hi
  rw [List.get_eq_getElem, List.get_eq_getElem] at hvar hcand
  have ht := mem_order_iff.mp (List.getElem_mem hit)
  obtain ⟨hu, -⟩ := hoffers.mem _ ht _ hcand
  have hmem : ((order pattern)[i].var, A[i].2) ∈ A := by
    rw [← hvar]
    exact List.getElem_mem hi
  have himage := imageIn_eq hu ((get?_eq_some_iff_mem hoffers hA hf ht hu).mpr hmem)
  simp only [assignmentOfMap, List.getElem_map]
  rw [himage, ← hvar]

end Satisfying

/-! ## From matches to assignments -/

section Matches

variable {pattern host : Graph} {cand : Triple → List Triple} {injective : Bool} {f : LabelMap}

theorem mem_assignmentOfMap_iff {x : MatchVar} {u : Triple} :
    (x, u) ∈ assignmentOfMap pattern host f ↔
      ∃ t ∈ pattern.elements, x = t.var ∧ u = imageIn host f t := by
  simp only [assignmentOfMap, List.mem_map, mem_order_iff, Prod.mk.injEq, eq_comm]

/-- The image of an element under a structure-preserving map. -/
theorem imageIn_spec (hf : IsHom pattern host f) {t : Triple} (ht : t ∈ pattern.elements) :
    imageIn host f t ∈ host.elements ∧ f.get? t.label = some (imageIn host f t).label ∧
      ∀ e, f.get? (t.endName e) = some ((imageIn host f t).endName e) := by
  obtain ⟨u, hu, -, hlabel, hsource, htarget⟩ := hf.exists_image t ht
  rw [imageIn_eq hu hlabel]
  refine ⟨hu, hlabel, fun e => ?_⟩
  cases e with
  | source => exact hsource
  | target => exact htarget

/-- **Every match within the candidates is found**: giving each pattern element its image satisfies
the problem and describes the match. -/
theorem assignmentOfMap_satisfying (hf : IsMatch pattern host injective f)
    (hkeeps : KeepsTo pattern host cand f) :
    IsValued (matchVars pattern cand) (assignmentOfMap pattern host f) ∧
      (∀ a ∈ additions pattern injective, a.SatisfiedBy (assignmentOfMap pattern host f)) ∧
      LabelMap.ofPairs (labelPairs (assignmentOfMap pattern host f)) = .ok f := by
  refine ⟨?_, fun a ha => ?_, ?_⟩
  · show IsValued (matchVars pattern cand) (assignmentOfMap pattern host f)
    rw [isValued_iff, assignmentOfMap, List.forall₂_map_right_iff, List.forall₂_same]
    intro t ht
    obtain ⟨hu, hlabel, -⟩ := imageIn_spec hf.isHom (mem_order_iff.mp ht)
    exact ⟨rfl, hkeeps t (mem_order_iff.mp ht) _ hu hlabel⟩
  · show a.SatisfiedBy (assignmentOfMap pattern host f)
    cases a with
    | constraint c =>
      -- the map carries the end of the edge to the end of its image
      obtain ⟨t, ht, e, rfl⟩ := constraint_mem_additions_iff.mp ha
      obtain ⟨ht, hedge⟩ := Graph.mem_edges_iff.mp ht
      have hend := Graph.endName_mem ht e
      obtain ⟨-, -, hends⟩ := imageIn_spec hf.isHom ht
      obtain ⟨-, hlabel, -⟩ := imageIn_spec hf.isHom hend
      refine ⟨imageIn host f t, imageIn host f (Triple.node (t.endName e)),
        mem_assignmentOfMap_iff.mpr ⟨t, ht, (Triple.var_of_isEdge hedge).symm, rfl⟩,
        mem_assignmentOfMap_iff.mpr
          ⟨_, hend, (Triple.var_of_isNode Triple.isNode_node).symm, rfl⟩, decide_eq_true ?_⟩
      have hnode : f.get? (t.endName e) = some (imageIn host f (Triple.node (t.endName e))).label :=
        hlabel
      rw [hends e] at hnode
      exact Option.some.inj hnode
    | allDistinct ids =>
      -- there are groups only if the match is injective
      obtain ⟨hinj, -⟩ := allDistinct_mem_additions_iff.mp ha
      intro x _ y _ hxy u u' hu hu' heq
      obtain ⟨t, ht, rfl, rfl⟩ := mem_assignmentOfMap_iff.mp hu
      obtain ⟨t', ht', rfl, rfl⟩ := mem_assignmentOfMap_iff.mp hu'
      obtain ⟨-, hlabel, -⟩ := imageIn_spec hf.isHom ht
      obtain ⟨-, hlabel', -⟩ := imageIn_spec hf.isHom ht'
      rw [← heq] at hlabel'
      have hsame := hf.injective hinj _ _ _ hlabel hlabel'
      rw [Graph.eq_of_label ht ht' hsame] at hxy
      exact hxy rfl
  · refine LabelMap.ofPairs_eq_ok_iff.mpr fun x y => ?_
    rw [mem_labelPairs_iff]
    constructor
    · intro hxy
      obtain ⟨t, ht, rfl⟩ := Graph.mem_labels_iff.mp (hf.isHom.mem_labels x y hxy)
      obtain ⟨-, hlabel, -⟩ := imageIn_spec hf.isHom ht
      rw [hlabel] at hxy
      exact ⟨t.var, _, mem_assignmentOfMap_iff.mpr ⟨t, ht, rfl, rfl⟩, Triple.label_var,
        Option.some.inj hxy⟩
    · rintro ⟨v, u, hu, rfl, rfl⟩
      obtain ⟨t, ht, rfl, rfl⟩ := mem_assignmentOfMap_iff.mp hu
      rw [Triple.label_var]
      exact (imageIn_spec hf.isHom ht).2.1

end Matches

/-! ## The solver -/

/-- **The problem of a match can be built, and solving it finds the matches within the candidates.**
The morphisms named from the solutions list each of them once; none is refused. -/
theorem exists_solved {pattern host : Graph} {cand : Triple → List Triple}
    (hoffers : Offers pattern host cand) (injective : Bool) :
    ∃ p, Problem.build (matchVars pattern cand) (additions pattern injective) = .ok p ∧
      ∀ names : NameSupply, ∃ ms,
        (names.morphisms pattern host (p.solveAll.map labelPairs)).1 = .ok ms ∧
        ListsMaps pattern host
          (fun f => IsMatch pattern host injective f ∧ KeepsTo pattern host cand f) ms := by
  obtain ⟨p, hp⟩ := exists_build pattern cand injective
  have hdom : ∀ x ∈ matchVars pattern cand, x.domain.Nodup := by
    intro x hx
    obtain ⟨t, ht, rfl⟩ := List.mem_map.mp hx
    exact hoffers.nodup t (mem_order_iff.mp ht)
  refine ⟨p, hp, NameSupply.exists_morphisms_listsMaps ?_ ?_ ?_⟩
  · -- no assignment is refused as a morphism
    intro pairs hpairs
    obtain ⟨A, hA, rfl⟩ := List.mem_map.mp hpairs
    obtain ⟨hvalued, hsat⟩ := (Problem.mem_solveAll_iff hp).mp hA
    obtain ⟨f, hf⟩ := exists_ofPairs_labelPairs hvalued
    exact ⟨f, hf, isHom_of_satisfying hoffers hvalued hsat hf⟩
  · -- the maps that are described are the matches within the candidates
    intro f
    constructor
    · rintro ⟨hmatch, hkeeps⟩
      obtain ⟨hvalued, hsat, hf⟩ := assignmentOfMap_satisfying hmatch hkeeps
      exact ⟨_, List.mem_map_of_mem ((Problem.mem_solveAll_iff hp).mpr ⟨hvalued, hsat⟩), hf⟩
    · rintro ⟨pairs, hpairs, hf⟩
      obtain ⟨A, hA, rfl⟩ := List.mem_map.mp hpairs
      obtain ⟨hvalued, hsat⟩ := (Problem.mem_solveAll_iff hp).mp hA
      refine ⟨⟨isHom_of_satisfying hoffers hvalued hsat hf, fun hinj => ?_⟩,
        keepsTo_of_satisfying hoffers hvalued hf⟩
      subst hinj
      exact injective_of_satisfying hoffers hvalued hsat hf
  · -- different assignments describe different maps
    rw [List.pairwise_map]
    refine (Problem.nodup_solveAll hp hdom).imp_of_mem fun {A A'} hA hA' hne f hf hf' => hne ?_
    obtain ⟨hvalued, -⟩ := (Problem.mem_solveAll_iff hp).mp hA
    obtain ⟨hvalued', -⟩ := (Problem.mem_solveAll_iff hp).mp hA'
    rw [eq_assignmentOfMap hoffers hvalued hf, eq_assignmentOfMap hoffers hvalued' hf']

end MatchProblem

/-! ## All host elements of the right kind -/

/-- The host elements of the kind of `t`. -/
def Graph.kindMates (host : Graph) (t : Triple) : List Triple :=
  host.elements.filter fun u => t.IsNode ↔ u.IsNode

theorem Graph.mem_kindMates_iff {host : Graph} {t u : Triple} :
    u ∈ host.kindMates t ↔ u ∈ host.elements ∧ (t.IsNode ↔ u.IsNode) := by
  rw [kindMates, List.mem_filter, decide_eq_true_eq]

theorem Graph.kindMates_of_isNode {host : Graph} {t : Triple} (h : t.IsNode) :
    host.kindMates t = host.nodes := by
  refine List.filter_congr fun u _ => ?_
  simp [h]

theorem Graph.kindMates_of_isEdge {host : Graph} {t : Triple} (h : t.IsEdge) :
    host.kindMates t = host.edges := by
  refine List.filter_congr fun u hu => ?_
  simp [h.not_isNode, Graph.isEdge_iff_not_isNode hu]

theorem formulate_eq {pattern host : Graph} {injective : Bool} :
    formulate pattern host injective = Problem.build
      (MatchProblem.matchVars pattern host.kindMates) (MatchProblem.additions pattern injective) := by
  rw [← MatchProblem.build_eq, formulate]
  congr 1
  · refine List.map_congr_left fun t ht => ?_
    rw [Graph.kindMates_of_isNode (Graph.mem_nodes_iff.mp ht).2]
  · refine List.map_congr_left fun t ht => ?_
    rw [Graph.kindMates_of_isEdge (Graph.mem_edges_iff.mp ht).2]

theorem offers_kindMates (pattern host : Graph) :
    MatchProblem.Offers pattern host host.kindMates where
  mem _ _ _ hu := Graph.mem_kindMates_iff.mp hu
  nodup _ _ := Graph.nodup_elements.filter _

/-- Offering everything of the right kind excludes no match. -/
theorem keepsTo_kindMates {pattern host : Graph} {f : LabelMap} (hf : IsHom pattern host f) :
    MatchProblem.KeepsTo pattern host host.kindMates f := by
  intro t ht u hu hlabel
  exact Graph.mem_kindMates_iff.mpr ⟨hu, (hf.exists_image_of_get? ht hu hlabel).1⟩

/-! ## The matcher -/

/-- Solving finds lists of pairs that list the matches, from whatever supply they are named. -/
theorem MatcherConfig.exists_allPairs_constraints {c : MatcherConfig}
    (hengine : c.engine = .constraints) (pattern host : Graph) (injective : Bool) :
    ∃ l, c.allPairs pattern host injective = .ok l ∧ ∀ names : NameSupply, ∃ ms,
      (names.morphisms pattern host l).1 = .ok ms ∧
      ListsMaps pattern host (IsMatch pattern host injective) ms := by
  obtain ⟨p, hp, hsolved⟩ := MatchProblem.exists_solved (offers_kindMates pattern host) injective
  refine ⟨p.solveAll.map MatchProblem.labelPairs, ?_, fun names => ?_⟩
  · unfold allPairs
    rw [hengine]
    simp only [formulate_eq, hp]
  · obtain ⟨ms, hms, hlists⟩ := hsolved names
    refine ⟨ms, hms, hlists.congr fun f => ?_⟩
    exact ⟨And.left, fun hf => ⟨hf, keepsTo_kindMates hf.isHom⟩⟩

namespace Matcher

variable {m : Matcher}

theorem allMatches_of_isEmpty {pattern host : Graph} {injective : Bool}
    (h : pattern.isEmpty = true) : (m.allMatches pattern host injective).1 = .ok [] := by
  rw [allMatches, if_pos h]

/-- What is found is named, and handed out. -/
theorem allMatches_eq {pattern host : Graph} {injective : Bool} {l : List (List (Name × Name))}
    (hne : pattern.isEmpty = false) (hl : m.config.allPairs pattern host injective = .ok l) :
    m.allMatches pattern host injective =
      ((m.names.morphisms pattern host l).1.mapError .construction,
        m.withNames (m.names.morphisms pattern host l).2) := by
  rw [allMatches, if_neg (by simp [hne]), hl]

theorem allMatches_of_allPairs {pattern host : Graph} {injective : Bool}
    {l : List (List (Name × Name))} {ms : List Morphism} (hne : pattern.isEmpty = false)
    (hl : m.config.allPairs pattern host injective = .ok l)
    (hms : (m.names.morphisms pattern host l).1 = .ok ms) :
    (m.allMatches pattern host injective).1 = .ok ms := by
  rw [allMatches_eq hne hl, hms]
  rfl

theorem exists_allMatches_constraints (hengine : m.config.engine = .constraints)
    {pattern : Graph} (hne : pattern.isEmpty = false) (host : Graph) (injective : Bool) :
    ∃ ms, (m.allMatches pattern host injective).1 = .ok ms ∧
      ListsMaps pattern host (IsMatch pattern host injective) ms := by
  obtain ⟨l, hl, hnamed⟩ := MatcherConfig.exists_allPairs_constraints hengine pattern host injective
  obtain ⟨ms, hms, hlists⟩ := hnamed m.names
  exact ⟨ms, allMatches_of_allPairs hne hl hms, hlists⟩

/-- **Solving finds all matches.** A matcher that solves never fails; of an empty pattern it finds no
match, of any other the structure-preserving maps into the host, each once, where an injective match
gives different labels different images. -/
theorem allMatches_constraints_listsMaps {m : Matcher} (hengine : m.config.engine = .constraints)
    (pattern host : Graph) (injective : Bool) :
    ∃ ms, (m.allMatches pattern host injective).1 = .ok ms ∧
      (pattern.isEmpty = true → ms = []) ∧
      (pattern.isEmpty = false → ListsMaps pattern host (IsMatch pattern host injective) ms) := by
  cases hempty : pattern.isEmpty with
  | true => exact ⟨[], allMatches_of_isEmpty hempty, fun _ => rfl, fun h => by cases h⟩
  | false =>
    obtain ⟨ms, hms, hlists⟩ := exists_allMatches_constraints hengine hempty host injective
    exact ⟨ms, hms, fun h => (by cases h), fun _ => hlists⟩

/-- A pattern of two parallel edges and a lone node, in a host with a loop. -/
theorem allMatches_constraints_listsMaps_loop :
    ∃ pattern host ms,
      Graph.ofEntries ⟨"P"⟩ [.edge ⟨⟨"x"⟩, ⟨"e"⟩, ⟨"y"⟩⟩, .edge ⟨⟨"x"⟩, ⟨"f"⟩, ⟨"y"⟩⟩, .node ⟨"z"⟩] =
        .ok pattern ∧
      Graph.ofEntries ⟨"H"⟩ [.edge ⟨⟨"a"⟩, ⟨"1"⟩, ⟨"a"⟩⟩, .edge ⟨⟨"a"⟩, ⟨"2"⟩, ⟨"b"⟩⟩] = .ok host ∧
      (Matcher.new .default).config.engine = .constraints ∧
      ((Matcher.new .default).allMatches pattern host false).1 = .ok ms ∧
      ListsMaps pattern host (IsMatch pattern host false) ms := by
  obtain ⟨ms, hms, -, hlists⟩ := allMatches_constraints_listsMaps (m := Matcher.new .default) rfl _ _ _
  exact ⟨_, _, ms, rfl, rfl, rfl, hms, hlists rfl⟩

end Matcher

end GraphHom
