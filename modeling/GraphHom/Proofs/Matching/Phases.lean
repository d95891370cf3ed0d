import GraphHom.Proofs.Matching.Memory

/-!
# The phases of a growth

A growth pairs all edges of the pattern first. They bind the nodes at their ends, so that only nodes
without edges are left when the last edge has been paired, and only these are paired themselves.

* `PartialMatch.Phases` — **the invariant** along a path: which edges and which nodes have been paired;
* `PartialMatch.Phases.pair` — **the step**: an admissible pairing pairs another edge, or another node
  without edges when no edge is left;
* `PartialMatch.exists_phases_of_path` — **the run**: every path from the start keeps to the phases.

The paths are those on which a growth goes (`reaches_growthStart_iff_exists_path`). Every step takes its
own element out of what is unmatched, so that there are no long paths, and a growth ends without memory
(`growth_phases`).
-/

namespace GraphHom

/-! ## Paths -/

/-- The choices that are made on a path, and the offer to which they lead: each of them is offered where
it is made, and admissible there. -/
inductive StateSpace.Path {σ χ κ ω : Type} (space : StateSpace σ χ κ ω) (start : Offer σ χ) :
    List χ → Offer σ χ → Prop where
  /-- No choice has been made. -/
  | nil : Path space start [] start
  /-- One more choice is made. -/
  | snoc {choices : List χ} {offer : Offer σ χ} {choice : χ} : Path space start choices offer →
      choice ∈ offer.choices → space.canApply offer.state choice = true →
      Path space start (choices ++ [choice])
        ⟨(space.apply offer.state choice).2, (space.apply offer.state choice).1⟩

/-- A node in which no edge of the graph starts or ends. -/
def Graph.IsBareNode (g : Graph) (t : Triple) : Prop :=
  t ∈ g.nodes ∧ ∀ e ∈ g.edges, e.source ≠ t.label ∧ e.target ≠ t.label

namespace PartialMatch

variable {pattern host : Graph} {injective : Bool} {s : PartialMatch} {p : Pairing} {t : Triple}
variable {es ns : List Triple} {ps : List Pairing} {offer : Offer PartialMatch Pairing}

/-! ## What is offered -/

/-- A pairing pairs an edge, or there is no edge to be paired. -/
def EdgesFirst (s : PartialMatch) (p : Pairing) : Prop :=
  p.pattern.IsEdge ∨ ∀ t ∈ s.unmatched, ¬t.IsEdge

theorem edgesFirst_of_mem_offered (h : p ∈ s.offered) : s.EdgesFirst p := by
  unfold offered at h
  by_cases hedges : (s.unmatched.filter Triple.IsEdge).isEmpty = true
  · refine .inr fun t ht => ?_
    simpa using List.filter_eq_nil_iff.mp (List.isEmpty_iff.mp hedges) t ht
  · rw [if_neg hedges] at h
    obtain ⟨t, ht, hp⟩ := List.mem_flatMap.mp h
    obtain ⟨u, -, rfl⟩ := List.mem_map.mp hp
    exact .inl (of_decide_eq_true (List.mem_filter.mp ht).2)

theorem edgesFirst_of_mem_seedPairings (h : p ∈ seedPairings pattern host) :
    (start pattern host injective).EdgesFirst p := by
  unfold seedPairings at h
  cases hedges : pattern.edges with
  | nil =>
    refine .inr fun t ht hedge => ?_
    have hmem := ((grown_start pattern host injective).mem_unmatched_iff t).mp ht
    have hnil : t ∈ pattern.edges := Graph.mem_edges_iff.mpr ⟨hmem.1, hedge⟩
    rw [hedges] at hnil
    cases hnil
  | cons e rest =>
    rw [hedges] at h
    obtain ⟨u, -, rfl⟩ := List.mem_map.mp h
    have he : e ∈ pattern.edges := hedges ▸ List.mem_cons_self
    exact .inl (Graph.mem_edges_iff.mp he).2

/-! ## What a pairing leaves unmatched -/

namespace Grown

/-- A pairing takes out the elements with the labels it binds. -/
theorem mem_unmatched_pair_iff_ne (h : Grown pattern host injective s) (hp : s.Admissible p) :
    t ∈ (s.pair p).unmatched ↔ t ∈ s.unmatched ∧ t.label ≠ p.pattern.source ∧
      t.label ≠ p.pattern.label ∧ t.label ≠ p.pattern.target := by
  rw [(h.pair hp).mem_unmatched_iff, h.mem_unmatched_iff, and_assoc]
  refine and_congr_right fun _ => ?_
  simp only [Option.eq_none_iff_forall_ne_some, ne_eq, h.get?_pair_iff hp, Binds]
  constructor
  · intro hnone
    exact ⟨fun y hy => hnone y (.inl hy), fun heq => hnone _ (.inr (.inl ⟨heq, rfl⟩)),
      fun heq => hnone _ (.inr (.inr (.inl ⟨heq, rfl⟩))),
      fun heq => hnone _ (.inr (.inr (.inr ⟨heq, rfl⟩)))⟩
  · rintro ⟨hold, hsource, hlabel, htarget⟩ y (hy | ⟨heq, -⟩ | ⟨heq, -⟩ | ⟨heq, -⟩)
    · exact hold y hy
    · exact hsource heq
    · exact hlabel heq
    · exact htarget heq

/-- An edge, or a node without edges, is taken out only by a pairing of its own. -/
theorem mem_unmatched_pair_iff_of_own (h : Grown pattern host injective s) (hp : s.Admissible p)
    (ht : t ∈ pattern.edges ∨ pattern.IsBareNode t) :
    t ∈ (s.pair p).unmatched ↔ t ∈ s.unmatched ∧ t ≠ p.pattern := by
  have hmem : t ∈ pattern.elements :=
    ht.elim (fun he => (Graph.mem_edges_iff.mp he).1) fun hn => (Graph.mem_nodes_iff.mp hn.1).1
  have hlabel : t.label = p.pattern.label ↔ t = p.pattern :=
    ⟨Graph.eq_of_label hmem (h.mem_pattern hp), fun heq => heq ▸ rfl⟩
  -- at an end of what is paired stands a node, and one with an edge if an edge is paired
  have hends : t ≠ p.pattern → t.label ≠ p.pattern.source ∧ t.label ≠ p.pattern.target := by
    intro hne
    rcases pattern.isNode_or_isEdge _ (h.mem_pattern hp) with hnode | hedge
    · rw [hnode.1, hnode.2]
      exact ⟨fun heq => hne (hlabel.mp heq), fun heq => hne (hlabel.mp heq)⟩
    · rcases ht with he | hbare
      · have hnot : ¬t.IsNode := (Graph.mem_edges_iff.mp he).2.not_isNode
        obtain ⟨hsource, htarget⟩ := pattern.ends_mem _ (h.mem_pattern hp)
        constructor
        · intro heq
          exact hnot (Graph.eq_of_label hmem hsource heq ▸ Triple.isNode_node)
        · intro heq
          exact hnot (Graph.eq_of_label hmem htarget heq ▸ Triple.isNode_node)
      · obtain ⟨hsource, htarget⟩ := hbare.2 _ (Graph.mem_edges_iff.mpr ⟨h.mem_pattern hp, hedge⟩)
        exact ⟨hsource.symm, htarget.symm⟩
  rw [h.mem_unmatched_pair_iff_ne hp]
  refine and_congr_right fun _ => ?_
  constructor
  · rintro ⟨-, hne, -⟩
    exact fun heq => hne (hlabel.mpr heq)
  · intro hne
    exact ⟨(hends hne).1, fun heq => hne (hlabel.mp heq), (hends hne).2⟩

/-- **Edges bind the nodes at their ends.** When no edge is left, what is left are nodes without edges. -/
theorem isBareNode_of_mem_unmatched (h : Grown pattern host injective s)
    (hedges : ∀ t ∈ s.unmatched, ¬t.IsEdge) (ht : t ∈ s.unmatched) : pattern.IsBareNode t := by
  obtain ⟨htp, hnone⟩ := (h.mem_unmatched_iff t).mp ht
  have hnode : t.IsNode := (pattern.isNode_or_isEdge t htp).resolve_right (hedges t ht)
  refine ⟨Graph.mem_nodes_iff.mpr ⟨htp, hnode⟩, fun e he => ?_⟩
  obtain ⟨hmem, hedge⟩ := Graph.mem_edges_iff.mp he
  -- the edge has been paired, and its ends with it
  have hbound : ∃ y, s.binding.get? e.label = some y := by
    refine Option.ne_none_iff_exists'.mp fun hfree => ?_
    exact hedges e ((h.mem_unmatched_iff e).mpr ⟨hmem, hfree⟩) hedge
  obtain ⟨y, hy⟩ := hbound
  obtain ⟨u, -, -, -, hsource, htarget⟩ := h.exists_image e hmem y hy
  constructor
  · intro heq
    rw [heq, hnone] at hsource
    cases hsource
  · intro heq
    rw [heq, hnone] at htarget
    cases htarget

end Grown

/-! ## What has been paired -/

/-- Of the elements of one sort, those that are not unmatched are listed, each once. -/
structure HasPaired (s : PartialMatch) (sort : Triple → Prop) (l : List Triple) : Prop where
  /-- None is listed twice. -/
  nodup : l.Nodup
  /-- Those that are not unmatched are listed. -/
  mem_iff : ∀ t, t ∈ l ↔ sort t ∧ t ∉ s.unmatched

variable {sort : Triple → Prop} {l : List Triple}

/-- One more element of the sort is paired. -/
theorem HasPaired.snoc (h : s.HasPaired sort l) (hp : p.pattern ∈ s.unmatched) (hsort : sort p.pattern)
    (hown : ∀ t, sort t → (t ∈ (s.pair p).unmatched ↔ t ∈ s.unmatched ∧ t ≠ p.pattern)) :
    (s.pair p).HasPaired sort (l ++ [p.pattern]) where
  nodup := by
    have hnew : p.pattern ∉ l := fun hmem => ((h.mem_iff _).mp hmem).2 hp
    refine List.nodup_append.mpr ⟨h.nodup, List.nodup_singleton _, fun t ht u hu heq => ?_⟩
    rw [heq, List.mem_singleton.mp hu] at ht
    exact hnew ht
  mem_iff t := by
    rw [List.mem_append, List.mem_singleton, h.mem_iff]
    constructor
    · rintro (⟨ht, hmatched⟩ | rfl)
      · exact ⟨ht, fun hmem => hmatched ((hown t ht).mp hmem).1⟩
      · exact ⟨hsort, fun hmem => ((hown _ hsort).mp hmem).2 rfl⟩
    · rintro ⟨ht, hmatched⟩
      by_cases heq : t = p.pattern
      · exact .inr heq
      · exact .inl ⟨ht, fun hmem => hmatched ((hown t ht).mpr ⟨hmem, heq⟩)⟩

/-- An element of another sort is paired. -/
theorem HasPaired.keep (h : s.HasPaired sort l) (hsort : ¬sort p.pattern)
    (hown : ∀ t, sort t → (t ∈ (s.pair p).unmatched ↔ t ∈ s.unmatched ∧ t ≠ p.pattern)) :
    (s.pair p).HasPaired sort l where
  nodup := h.nodup
  mem_iff t := by
    rw [h.mem_iff]
    refine and_congr_right fun ht => not_congr ?_
    have hne : t ≠ p.pattern := fun heq => hsort (heq ▸ ht)
    rw [hown t ht]
    exact (and_iff_left hne).symm

/-! ## The invariant -/

/-- The edges `es` and after them the nodes `ns` have been paired, and nothing else. -/
structure Phases (pattern : Graph) (s : PartialMatch) (es ns : List Triple) : Prop where
  /-- The edges that are not unmatched have been paired, each once. -/
  edges : s.HasPaired (· ∈ pattern.edges) es
  /-- The nodes without edges that are not unmatched have been paired, each once. -/
  nodes : s.HasPaired pattern.IsBareNode ns
  /-- No node has been paired while an edge was left. -/
  edges_first : ns ≠ [] → ∀ t ∈ s.unmatched, ¬t.IsEdge

theorem phases_start : Phases pattern (start pattern host injective) [] [] := by
  have hall : ∀ t ∈ pattern.elements, t ∈ (start pattern host injective).unmatched := fun t ht =>
    ((grown_start pattern host injective).mem_unmatched_iff t).mpr ⟨ht, LabelMap.get?_empty⟩
  refine ⟨⟨.nil, fun t => ?_⟩, ⟨.nil, fun t => ?_⟩, fun hne => absurd rfl hne⟩
  · refine iff_of_false List.not_mem_nil ?_
    rintro ⟨ht, hmatched⟩
    exact hmatched (hall t (Graph.mem_edges_iff.mp ht).1)
  · refine iff_of_false List.not_mem_nil ?_
    rintro ⟨ht, hmatched⟩
    exact hmatched (hall t (Graph.mem_nodes_iff.mp ht.1).1)

/-- **The step.** An admissible pairing pairs another edge, before any node, or else another node without
edges. -/
theorem Phases.pair (hs : Grown pattern host injective s) (h : Phases pattern s es ns)
    (hp : s.Admissible p) (hfirst : s.EdgesFirst p) :
    (ns = [] ∧ Phases pattern (s.pair p) (es ++ [p.pattern]) []) ∨
      Phases pattern (s.pair p) es (ns ++ [p.pattern]) := by
  have hedges : ∀ t, t ∈ pattern.edges →
      (t ∈ (s.pair p).unmatched ↔ t ∈ s.unmatched ∧ t ≠ p.pattern) :=
    fun t ht => hs.mem_unmatched_pair_iff_of_own hp (.inl ht)
  have hnodes : ∀ t, pattern.IsBareNode t →
      (t ∈ (s.pair p).unmatched ↔ t ∈ s.unmatched ∧ t ≠ p.pattern) :=
    fun t ht => hs.mem_unmatched_pair_iff_of_own hp (.inr ht)
  by_cases hedge : p.pattern.IsEdge
  · have hnil : ns = [] := by
      by_contra hne
      exact h.edges_first hne p.pattern hp.unmatched hedge
    have hmem : p.pattern ∈ pattern.edges := Graph.mem_edges_iff.mpr ⟨hs.mem_pattern hp, hedge⟩
    have hother : ¬pattern.IsBareNode p.pattern := fun hbare =>
      hedge.not_isNode (Graph.mem_nodes_iff.mp hbare.1).2
    refine .inl ⟨hnil, h.edges.snoc hp.unmatched hmem hedges, ?_, fun hne => absurd rfl hne⟩
    exact hnil ▸ h.nodes.keep hother hnodes
  · have hnone : ∀ t ∈ s.unmatched, ¬t.IsEdge := hfirst.resolve_left hedge
    have hbare : pattern.IsBareNode p.pattern := hs.isBareNode_of_mem_unmatched hnone hp.unmatched
    have hother : p.pattern ∉ pattern.edges := fun he => hedge (Graph.mem_edges_iff.mp he).2
    refine .inr ⟨h.edges.keep hother hedges, h.nodes.snoc hp.unmatched hbare hnodes, ?_⟩
    exact fun _ t ht => hnone t (mem_unmatched_pair_iff.mp ht).1

/-! ## Whole paths -/

/-- What holds along a path: the state has been grown, edges are offered first, and the choices made so
far are the edges and nodes that have been paired. -/
theorem exists_phases_of_path (h : space.Path (growthStart pattern host injective) ps offer) :
    Grown pattern host injective offer.state ∧ (∀ p ∈ offer.choices, offer.state.EdgesFirst p) ∧
    ∃ es ns, ps.map (·.pattern) = es ++ ns ∧ Phases pattern offer.state es ns := by
  induction h with
  | nil =>
    exact ⟨grown_start pattern host injective, fun p hp => edgesFirst_of_mem_seedPairings hp,
      [], [], rfl, phases_start⟩
  | @snoc ps offer p _ hmem hcan ih =>
    obtain ⟨hs, hfirst, es, ns, heq, hphases⟩ := ih
    have hp : offer.state.Admissible p := canApply_iff.mp hcan
    refine ⟨hs.pair hp, fun q hq => edgesFirst_of_mem_offered hq, ?_⟩
    rw [List.map_append, heq]
    rcases hphases.pair hs hp (hfirst p hmem) with ⟨rfl, hnext⟩ | hnext
    · exact ⟨es ++ [p.pattern], [], by simp, hnext⟩
    · exact ⟨es, ns ++ [p.pattern], by simp, hnext⟩

/-- Every choice takes an element out of what is unmatched. -/
theorem length_add_length_le_of_path
    (h : space.Path (growthStart pattern host injective) ps offer) :
    ps.length + offer.state.unmatched.length ≤ pattern.elements.length := by
  induction h with
  | nil =>
    rw [List.length_nil, Nat.zero_add]
    exact length_unmatched_start_le
  | @snoc ps offer p _ _ hcan ih =>
    have hlt := length_unmatched_pair_lt (canApply_iff.mp hcan).unmatched
    rw [List.length_append, List.length_singleton]
    show ps.length + 1 + (offer.state.pair p).unmatched.length ≤ _
    omega

end PartialMatch

open PartialMatch

/-- The paths lead to what a growth can come to, and nowhere else. -/
theorem reaches_growthStart_iff_exists_path {pattern host : Graph} {injective : Bool}
    {offer : Offer PartialMatch Pairing} :
    space.Reaches (growthStart pattern host injective) offer ↔
      ∃ ps, space.Path (growthStart pattern host injective) ps offer := by
  constructor
  · intro h
    induction h with
    | refl => exact ⟨[], .nil⟩
    | tail _ hlast ih =>
      obtain ⟨ps, hpath⟩ := ih
      obtain ⟨p, hmem, hp, rfl⟩ := mem_successors_iff.mp hlast.2
      exact ⟨ps ++ [p], .snoc hpath hmem (canApply_iff.mpr hp)⟩
  · rintro ⟨ps, hpath⟩
    induction hpath with
    | nil => exact .refl
    | snoc _ hmem hcan ih => exact reaches_pair ih hmem hcan

/-- Without memory the loop of a growth comes to an end, be it broken off or not. -/
theorem exists_run_growthStart (pattern host : Graph) (injective firstOnly : Bool) :
    ∃ looks w, Pending.run space firstOnly looks
      ((Explorer.new false).pending (growthStart pattern host injective)) = some w := by
  obtain ⟨e, he⟩ := exists_allResults_growthStart pattern host injective false
  cases firstOnly with
  | false =>
    obtain ⟨looks, w, hrun, -⟩ := Explorer.allResults_iff_run.mp ⟨_, he⟩
    exact ⟨looks, w, hrun⟩
  | true =>
    obtain ⟨e', he', -⟩ := Explorer.firstResult_of_allResults he
    obtain ⟨looks, w, hrun, -⟩ := Explorer.firstResult_iff_run.mp ⟨_, he'⟩
    exact ⟨looks, w, hrun⟩

/-- **Edges come first, and every step makes progress.** On every path of a growth each choice takes its
own element, and perhaps others, out of what is unmatched; so no path is longer than the pattern has
elements, and the growth ends without memory. A path on which everything has been matched has paired each
edge of the pattern once, and after them each node without edges once. -/
theorem growth_phases (pattern host : Graph) (injective : Bool) :
    (∀ ps offer, space.Path (growthStart pattern host injective) ps offer →
      ps.length + offer.state.unmatched.length ≤ pattern.elements.length ∧
      ∀ p ∈ offer.choices, space.canApply offer.state p = true →
        (space.apply offer.state p).2.unmatched.Sublist offer.state.unmatched ∧
        p.pattern ∈ offer.state.unmatched ∧
        p.pattern ∉ (space.apply offer.state p).2.unmatched) ∧
    (∀ firstOnly, ∃ looks w, Pending.run space firstOnly looks
      ((Explorer.new false).pending (growthStart pattern host injective)) = some w) ∧
    ∀ ps offer, space.Path (growthStart pattern host injective) ps offer →
      space.isDone offer.state = true → ∃ es ns, ps.map (·.pattern) = es ++ ns ∧
        es.Nodup ∧ (∀ t, t ∈ es ↔ t ∈ pattern.edges) ∧
        ns.Nodup ∧ ∀ t, t ∈ ns ↔ pattern.IsBareNode t := by
  refine ⟨fun ps offer hpath => ⟨length_add_length_le_of_path hpath, fun p _ hcan => ?_⟩,
    exists_run_growthStart pattern host injective, fun ps offer hpath hdone => ?_⟩
  · refine ⟨List.filter_sublist, (canApply_iff.mp hcan).unmatched, fun hmem => ?_⟩
    exact (mem_unmatched_pair_iff.mp hmem).2.1 rfl
  · obtain ⟨-, -, es, ns, heq, hphases⟩ := exists_phases_of_path hpath
    have hnil : ∀ t, t ∉ offer.state.unmatched := fun t ht => by
      rw [isDone_iff.mp hdone] at ht
      cases ht
    exact ⟨es, ns, heq, hphases.edges.nodup,
      fun t => (hphases.edges.mem_iff t).trans (and_iff_left (hnil t)), hphases.nodes.nodup,
      fun t => (hphases.nodes.mem_iff t).trans (and_iff_left (hnil t))⟩

/-- An edge, a loop at its end and a node apart, and a path that pairs them in this order. -/
theorem growth_phases_loop_and_lone_node :
    ∃ pattern host offer, ∃ p q r : Pairing,
      Graph.ofEntries ⟨"P"⟩ [.edge ⟨⟨"x"⟩, ⟨"e"⟩, ⟨"y"⟩⟩, .edge ⟨⟨"y"⟩, ⟨"f"⟩, ⟨"y"⟩⟩, .node ⟨"z"⟩] =
        .ok pattern ∧
      Graph.ofEntries ⟨"H"⟩ [.edge ⟨⟨"a"⟩, ⟨"1"⟩, ⟨"b"⟩⟩, .edge ⟨⟨"b"⟩, ⟨"2"⟩, ⟨"b"⟩⟩, .node ⟨"c"⟩] =
        .ok host ∧
      p = ⟨⟨⟨"x"⟩, ⟨"e"⟩, ⟨"y"⟩⟩, ⟨⟨"a"⟩, ⟨"1"⟩, ⟨"b"⟩⟩⟩ ∧
      q = ⟨⟨⟨"y"⟩, ⟨"f"⟩, ⟨"y"⟩⟩, ⟨⟨"b"⟩, ⟨"2"⟩, ⟨"b"⟩⟩⟩ ∧ r = ⟨.node ⟨"z"⟩, .node ⟨"c"⟩⟩ ∧
      offer = ((((PartialMatch.start pattern host true).pair p).pair q).pair r).below ∧
      space.Path (growthStart pattern host true) [p, q, r] offer ∧ space.isDone offer.state = true ∧
      (∃ es ns, [p, q, r].map (·.pattern) = es ++ ns ∧ es.Nodup ∧
        (∀ t, t ∈ es ↔ t ∈ pattern.edges) ∧ ns.Nodup ∧ ∀ t, t ∈ ns ↔ pattern.IsBareNode t) ∧
      ∃ looks w, Pending.run space true looks
        ((Explorer.new false).pending (growthStart pattern host true)) = some w := by
  obtain ⟨-, hends, hphases⟩ := growth_phases _ _ true
  refine ⟨_, _, _, _, _, _, rfl, rfl, rfl, rfl, rfl, rfl, ?path, ?done, hphases _ _ ?path ?done,
    hends true⟩
  case path =>
    show space.Path _ ([] ++ [_] ++ [_] ++ [_]) _
    refine .snoc (.snoc (.snoc .nil ?_ ?_) ?_ ?_) ?_ ?_ <;> decide
  case done => decide

end GraphHom
