import GraphHom.Proofs.Constraint.Assignments
import GraphHom.Proofs.Matching.Listing

/-!
# The constraint problem of a match

The problem of a match has a variable for every pattern element, and offers each some host elements
of its kind, its candidates (`Offers`). Said as additions to variables (`build_eq`), it can always be
built (`exists_build`).

An assignment with values among the candidates gives every pattern element one value and nothing else
(`exists_value`, `exists_of_mem`, `value_unique`), so that its label pairs describe a map
(`get?_eq_some_iff_mem`).
-/

namespace GraphHom

/-- The variable of a pattern element. -/
def Triple.var (t : Triple) : MatchVar := if t.IsNode then .node t.label else .edge t.label

theorem Triple.var_of_isNode {t : Triple} (h : t.IsNode) : t.var = .node t.label := if_pos h

theorem Triple.var_of_isEdge {t : Triple} (h : t.IsEdge) : t.var = .edge t.label :=
  if_neg h.not_isNode

theorem Triple.label_var {t : Triple} : t.var.label = t.label := by
  unfold Triple.var
  split <;> rfl

theorem Graph.endName_mem {g : Graph} {t : Triple} (ht : t ∈ g.elements) (e : EdgeEnd) :
    Triple.node (t.endName e) ∈ g.elements := by
  cases e with
  | source => exact (g.ends_mem t ht).1
  | target => exact (g.ends_mem t ht).2

theorem Triple.endName_of_isNode {t : Triple} (h : t.IsNode) {e : EdgeEnd} : t.endName e = t.label := by
  cases e with
  | source => exact h.1
  | target => exact h.2

namespace MatchProblem

/-! ## The problem in terms of additions -/

/-- The pattern elements in the order of their variables. -/
def order (pattern : Graph) : List Triple := pattern.nodes ++ pattern.edges

/-- The variables of the pattern elements with their candidates. -/
def matchVars (pattern : Graph) (cand : Triple → List Triple) : List (Variable MatchVar Triple) :=
  (order pattern).map fun t => ⟨t.var, cand t⟩

/-- The conditions on them: two incidences for every edge, and two groups for an injective match. -/
def additions (pattern : Graph) (injective : Bool) : List (Addition MatchVar Triple) :=
  (pattern.edges.flatMap Incidence.ofEdge).map (fun i => .constraint i.constraint) ++
    if injective then
      [.allDistinct (pattern.nodes.map Triple.var), .allDistinct (pattern.edges.map Triple.var)]
    else []

theorem build_eq {pattern : Graph} {cand : Triple → List Triple} {injective : Bool} :
    MatchProblem.build (pattern.nodes.map fun t => (t, cand t))
        (pattern.edges.map fun t => (t, cand t)) injective =
      Problem.build (matchVars pattern cand) (additions pattern injective) := by
  have hnodes : (pattern.nodes.map fun t => (⟨.node t.label, cand t⟩ : Variable MatchVar Triple)) =
      pattern.nodes.map fun t => ⟨t.var, cand t⟩ := by
    refine List.map_congr_left fun t ht => ?_
    rw [Triple.var_of_isNode (Graph.mem_nodes_iff.mp ht).2]
  have hedges : (pattern.edges.map fun t => (⟨.edge t.label, cand t⟩ : Variable MatchVar Triple)) =
      pattern.edges.map fun t => ⟨t.var, cand t⟩ := by
    refine List.map_congr_left fun t ht => ?_
    rw [Triple.var_of_isEdge (Graph.mem_edges_iff.mp ht).2]
  simp only [MatchProblem.build, Problem.build, matchVars, additions, order, List.map_map,
    Function.comp_def, List.flatMap_map, List.map_append, hnodes, hedges, List.foldlM_append,
    List.foldlM_map]
  cases injective with
  | false => rfl
  | true =>
    simp only [if_true, List.foldlM_cons, List.foldlM_nil, bind_pure]
    rfl

theorem mem_order_iff {pattern : Graph} {t : Triple} : t ∈ order pattern ↔ t ∈ pattern.elements := by
  rw [order, List.mem_append, Graph.mem_nodes_iff, Graph.mem_edges_iff, ← and_or_left]
  exact ⟨And.left, fun ht => ⟨ht, pattern.isNode_or_isEdge t ht⟩⟩

theorem nodup_order {pattern : Graph} : (order pattern).Nodup := by
  rw [order, List.nodup_append']
  -- nodes do not repeat, edges do not repeat, and no node is an edge
  refine ⟨Graph.nodup_elements.filter _, Graph.nodup_elements.filter _, fun t hn he => ?_⟩
  exact (Graph.mem_edges_iff.mp he).2.not_isNode (Graph.mem_nodes_iff.mp hn).2

/-- A pattern element is known by its variable. -/
theorem eq_of_var_eq {pattern : Graph} {t t' : Triple} (ht : t ∈ pattern.elements)
    (ht' : t' ∈ pattern.elements) (h : t.var = t'.var) : t = t' :=
  Graph.eq_of_label ht ht' (by rw [← Triple.label_var, h, Triple.label_var])

theorem constraint_mem_additions_iff {pattern : Graph} {injective : Bool}
    {c : Constraint MatchVar Triple} :
    .constraint c ∈ additions pattern injective ↔ ∃ t ∈ pattern.edges, ∃ e : EdgeEnd,
      c = Incidence.constraint ⟨.edge t.label, .node (t.endName e), e⟩ := by
  -- the groups at the end are no constraints
  have hgroups : .constraint c ∉ if injective then
      [Addition.allDistinct (pattern.nodes.map Triple.var), .allDistinct (pattern.edges.map Triple.var)]
      else [] := by
    split <;> simp
  rw [additions, List.mem_append, or_iff_left hgroups, List.mem_map]
  constructor
  · rintro ⟨i, hi, hc⟩
    obtain ⟨t, ht, hi⟩ := List.mem_flatMap.mp hi
    cases hc
    rcases List.mem_cons.mp hi with rfl | hi
    · exact ⟨t, ht, .source, rfl⟩
    · cases List.mem_singleton.mp hi
      exact ⟨t, ht, .target, rfl⟩
  · rintro ⟨t, ht, e, rfl⟩
    refine ⟨_, List.mem_flatMap.mpr ⟨t, ht, ?_⟩, rfl⟩
    cases e with
    | source => exact List.mem_cons_self
    | target => exact List.mem_cons_of_mem _ List.mem_cons_self

theorem allDistinct_mem_additions_iff {pattern : Graph} {injective : Bool} {ids : List MatchVar} :
    .allDistinct ids ∈ additions pattern injective ↔ injective = true ∧
      (ids = pattern.nodes.map Triple.var ∨ ids = pattern.edges.map Triple.var) := by
  have hcons : .allDistinct ids ∉ (pattern.edges.flatMap Incidence.ofEdge).map
      fun i => (.constraint i.constraint : Addition MatchVar Triple) := by
    simp
  rw [additions, List.mem_append, or_iff_right hcons]
  cases injective <;> simp

/-- The additions name variables of the problem only, so that it can be built. -/
theorem exists_build (pattern : Graph) (cand : Triple → List Triple) (injective : Bool) :
    ∃ p, Problem.build (matchVars pattern cand) (additions pattern injective) = .ok p := by
  have hvar : ∀ t ∈ pattern.elements, ∃ y ∈ matchVars pattern cand, y.id = t.var := fun t ht =>
    ⟨⟨t.var, cand t⟩, List.mem_map.mpr ⟨t, mem_order_iff.mpr ht, rfl⟩, rfl⟩
  apply Problem.exists_build
  · show (matchVars pattern cand).Pairwise fun x y => x.id ≠ y.id
    rw [matchVars, List.pairwise_map]
    refine nodup_order.imp_of_mem fun {t u} ht hu hne heq => hne ?_
    exact eq_of_var_eq (mem_order_iff.mp ht) (mem_order_iff.mp hu) heq
  · intro a ha x hx
    cases a with
    | constraint c =>
      obtain ⟨t, ht, e, rfl⟩ := constraint_mem_additions_iff.mp ha
      obtain ⟨ht, hedge⟩ := Graph.mem_edges_iff.mp ht
      rcases List.mem_cons.mp hx with rfl | hx
      · obtain ⟨y, hy, hid⟩ := hvar t ht
        exact ⟨y, hy, hid.trans (Triple.var_of_isEdge hedge)⟩
      · cases List.mem_singleton.mp hx
        obtain ⟨y, hy, hid⟩ := hvar _ (Graph.endName_mem ht e)
        exact ⟨y, hy, hid.trans (Triple.var_of_isNode Triple.isNode_node)⟩
    | allDistinct ids =>
      obtain ⟨-, rfl | rfl⟩ := allDistinct_mem_additions_iff.mp ha
      · obtain ⟨t, ht, rfl⟩ := List.mem_map.mp hx
        exact hvar t (Graph.mem_nodes_iff.mp ht).1
      · obtain ⟨t, ht, rfl⟩ := List.mem_map.mp hx
        exact hvar t (Graph.mem_edges_iff.mp ht).1

/-! ## Candidates -/

/-- The candidates of pattern elements are host elements of their kind, each offered once. -/
structure Offers (pattern host : Graph) (cand : Triple → List Triple) : Prop where
  /-- A candidate is a host element of the kind of the pattern element. -/
  mem : ∀ t ∈ pattern.elements, ∀ u ∈ cand t, u ∈ host.elements ∧ (t.IsNode ↔ u.IsNode)
  /-- No candidate is offered twice. -/
  nodup : ∀ t ∈ pattern.elements, (cand t).Nodup

/-- A map keeps to the candidates if it sends every pattern element to one of them. -/
def KeepsTo (pattern host : Graph) (cand : Triple → List Triple) (f : LabelMap) : Prop :=
  ∀ t ∈ pattern.elements, ∀ u ∈ host.elements, f.get? t.label = some u.label → u ∈ cand t

/-- The image of a pattern element under a map into the host. -/
def imageIn (host : Graph) (f : LabelMap) (t : Triple) : Triple :=
  ((f.get? t.label).bind host.get?).getD t

/-- The assignment that gives every pattern element its image. -/
def assignmentOfMap (pattern host : Graph) (f : LabelMap) : Assignment MatchVar Triple :=
  (order pattern).map fun t => (t.var, imageIn host f t)

theorem imageIn_eq {host : Graph} {f : LabelMap} {t u : Triple} (hu : u ∈ host.elements)
    (h : f.get? t.label = some u.label) : imageIn host f t = u := by
  rw [imageIn, h, Option.bind_some, Graph.get?_label hu, Option.getD_some]

/-! ## Values of pattern elements -/

section Values

variable {pattern host : Graph} {cand : Triple → List Triple} {A : Assignment MatchVar Triple}
variable {t u u' : Triple} {x : MatchVar}

theorem isValued_iff : IsValued (matchVars pattern cand) A ↔
    List.Forall₂ (fun t e => e.1 = t.var ∧ e.2 ∈ cand t) (order pattern) A := by
  rw [IsValued, matchVars, List.forall₂_map_left_iff]

/-- Every pattern element has one of its candidates as its value. -/
theorem exists_value (hA : IsValued (matchVars pattern cand) A) (ht : t ∈ pattern.elements) :
    ∃ u ∈ cand t, (t.var, u) ∈ A := by
  obtain ⟨hlen, hget⟩ := List.forall₂_iff_get.mp (isValued_iff.mp hA)
  obtain ⟨i, hi, rfl⟩ := List.getElem_of_mem (mem_order_iff.mpr ht)
  have hiA : i < A.length := hlen ▸ hi
  obtain ⟨hvar, hcand⟩ := hget i hi hiA
  refine ⟨A[i].2, hcand, ?_⟩
  rw [List.get_eq_getElem, List.get_eq_getElem] at hvar
  rw [← hvar]
  exact List.getElem_mem hiA

/-- Only pattern elements have values, each its candidates. -/
theorem exists_of_mem (hA : IsValued (matchVars pattern cand) A) (h : (x, u) ∈ A) :
    ∃ t ∈ pattern.elements, x = t.var ∧ u ∈ cand t := by
  obtain ⟨hlen, hget⟩ := List.forall₂_iff_get.mp (isValued_iff.mp hA)
  obtain ⟨i, hi, heq⟩ := List.getElem_of_mem h
  have hit : i < (order pattern).length := hlen ▸ hi
  obtain ⟨hvar, hcand⟩ := hget i hit hi
  rw [List.get_eq_getElem, List.get_eq_getElem, heq] at hvar hcand
  exact ⟨(order pattern)[i], mem_order_iff.mp (List.getElem_mem hit), hvar, hcand⟩

theorem mem_cand_of_mem (hA : IsValued (matchVars pattern cand) A) (ht : t ∈ pattern.elements)
    (h : (t.var, u) ∈ A) : u ∈ cand t := by
  obtain ⟨t', ht', hvar, hu⟩ := exists_of_mem hA h
  rwa [eq_of_var_eq ht ht' hvar]

/-- A variable has one value. -/
theorem value_unique (hA : IsValued (matchVars pattern cand) A) (h : (x, u) ∈ A)
    (h' : (x, u') ∈ A) : u = u' := by
  obtain ⟨hlen, hget⟩ := List.forall₂_iff_get.mp (isValued_iff.mp hA)
  obtain ⟨i, hi, heq⟩ := List.getElem_of_mem h
  obtain ⟨j, hj, heq'⟩ := List.getElem_of_mem h'
  have hit : i < (order pattern).length := hlen ▸ hi
  have hjt : j < (order pattern).length := hlen ▸ hj
  obtain ⟨hvar, -⟩ := hget i hit hi
  obtain ⟨hvar', -⟩ := hget j hjt hj
  rw [List.get_eq_getElem, List.get_eq_getElem, heq] at hvar
  rw [List.get_eq_getElem, List.get_eq_getElem, heq'] at hvar'
  -- the positions of the two entries hold elements with one variable, so they are one position
  have hsame := eq_of_var_eq (mem_order_iff.mp (List.getElem_mem hit))
    (mem_order_iff.mp (List.getElem_mem hjt)) (hvar.symm.trans hvar')
  have hij : i = j := nodup_order.getElem_inj_iff.mp hsame
  subst hij
  rw [heq] at heq'
  exact (Prod.mk.inj heq').2

theorem mem_labelPairs_iff {y z : Name} :
    (y, z) ∈ labelPairs A ↔ ∃ x u, (x, u) ∈ A ∧ x.label = y ∧ u.label = z := by
  simp [labelPairs]

/-- Read as label pairs, an assignment describes a map. -/
theorem exists_ofPairs_labelPairs (hA : IsValued (matchVars pattern cand) A) :
    ∃ f, LabelMap.ofPairs (labelPairs A) = .ok f := by
  refine LabelMap.exists_ofPairs fun x y y' hy hy' => ?_
  obtain ⟨v, u, hu, rfl, rfl⟩ := mem_labelPairs_iff.mp hy
  obtain ⟨v', u', hu', hlabel, rfl⟩ := mem_labelPairs_iff.mp hy'
  obtain ⟨t, ht, rfl, -⟩ := exists_of_mem hA hu
  obtain ⟨t', ht', rfl, -⟩ := exists_of_mem hA hu'
  rw [Triple.label_var, Triple.label_var] at hlabel
  rw [Graph.eq_of_label ht' ht hlabel] at hu'
  rw [value_unique hA hu hu']

/-- The map that an assignment describes sends a pattern element to its value. -/
theorem get?_eq_some_iff_mem (hoffers : Offers pattern host cand)
    (hA : IsValued (matchVars pattern cand) A) {f : LabelMap}
    (hf : LabelMap.ofPairs (labelPairs A) = .ok f) (ht : t ∈ pattern.elements)
    (hu : u ∈ host.elements) : f.get? t.label = some u.label ↔ (t.var, u) ∈ A := by
  rw [LabelMap.ofPairs_eq_ok_iff.mp hf, mem_labelPairs_iff]
  constructor
  · rintro ⟨v, w, hw, hlabel, hwu⟩
    obtain ⟨t', ht', rfl, hcand⟩ := exists_of_mem hA hw
    rw [Triple.label_var] at hlabel
    rw [← Graph.eq_of_label ht' ht hlabel, ← Graph.eq_of_label (hoffers.mem t' ht' w hcand).1 hu hwu]
    exact hw
  · intro h
    exact ⟨t.var, u, h, Triple.label_var, rfl⟩

end Values

end MatchProblem

end GraphHom
