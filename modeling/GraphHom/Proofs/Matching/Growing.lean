import GraphHom.Proofs.Matching.PartialMatch
import GraphHom.Proofs.Matching.Solving
import GraphHom.Proofs.StateSpace.Walk

/-!
# Matches by growing

Growing a match goes through the partial matches below the start. Below a grown partial match lie
exactly the matches that extend it (`mem_results_below_iff`); below the start these are all, because
the first element of the pattern is offered every host element of its kind (`offersImage_growthStart`).

No two partial matches that can be met have one key, so remembering them loses nothing, and every step
matches an element, so no path is too long. Hence `growMatches` lists every match once
(`mem_growMatches_iff`, `nodup_growMatches`), and a matcher that grows finds what one that solves finds
(`allMatches_growth_perm_constraints`).
-/

namespace GraphHom

namespace PartialMatch

variable {pattern host : Graph} {injective : Bool} {f : LabelMap} {s : PartialMatch}
variable {offer offer' : Offer PartialMatch Pairing} {depth : Nat}

/-! ## Steps of the space -/

/-- A partial match with the pairings to be tried next. -/
def below (s : PartialMatch) : Offer PartialMatch Pairing := ⟨s, s.offered⟩

theorem mem_successors_iff : offer' ∈ space.successors offer ↔
    ∃ p ∈ offer.choices, offer.state.Admissible p ∧ (offer.state.pair p).below = offer' := by
  show offer' ∈ (offer.choices.filter (canApply offer.state)).map _ ↔ _
  simp only [List.mem_map, List.mem_filter, canApply_iff, and_assoc]
  exact Iff.rfl

theorem isDone_iff : space.isDone s = true ↔ s.unmatched = [] := List.isEmpty_iff

/-- Every step matches an element, so the unmatched ones bound the length of a path. -/
theorem endsWithin_of_length_lt (h : offer.state.unmatched.length < depth) :
    space.EndsWithin depth offer := by
  induction depth generalizing offer with
  | zero => exact absurd h (Nat.not_lt_zero _)
  | succ depth ih =>
    refine .inr fun next hnext => ih ?_
    obtain ⟨p, -, hp, rfl⟩ := mem_successors_iff.mp hnext
    have hlt := length_unmatched_pair_lt hp.unmatched
    show (offer.state.pair p).unmatched.length < depth
    omega

/-! ## What lies below -/

/-- Some choice of the offer pairs an unmatched element with its image under `f`. -/
def OffersImage (host : Graph) (offer : Offer PartialMatch Pairing) (f : LabelMap) : Prop :=
  ∃ p ∈ offer.choices, p.pattern ∈ offer.state.unmatched ∧ p.host ∈ host.elements ∧
    f.get? p.pattern.label = some p.host.label

/-- One step: if below each successor lie the matches that extend it, and every match that extends
the state is offered, then these lie below the offer. -/
theorem mem_results_succ_iff (hs : Grown pattern host injective offer.state)
    (hne : offer.state.unmatched ≠ [])
    (hoffers : ∀ f, IsMatch pattern host injective f → offer.state.binding.Submap f →
      OffersImage host offer f)
    (hnext : ∀ s, Grown pattern host injective s →
      s.unmatched.length < offer.state.unmatched.length →
      (f ∈ space.results depth s.below ↔
        IsMatch pattern host injective f ∧ s.binding.Submap f)) :
    f ∈ space.results (depth + 1) offer ↔
      IsMatch pattern host injective f ∧ offer.state.binding.Submap f := by
  rw [StateSpace.results_of_not_isDone fun h => hne (isDone_iff.mp h), List.mem_flatMap]
  constructor
  · rintro ⟨next, hmem, hf⟩
    obtain ⟨p, -, hp, rfl⟩ := mem_successors_iff.mp hmem
    obtain ⟨hmatch, hsub⟩ :=
      (hnext _ (hs.pair hp) (length_unmatched_pair_lt hp.unmatched)).mp hf
    exact ⟨hmatch, hs.submap_of_pair hp hsub⟩
  · rintro ⟨hmatch, hsub⟩
    -- follow the match: the pairing of an element with its image is admissible and leads to it
    obtain ⟨p, hmem, hunmatched, hhost, hlabel⟩ := hoffers f hmatch hsub
    have hp := hs.admissible_of_isMatch hmatch hsub hunmatched hhost hlabel
    exact ⟨_, mem_successors_iff.mpr ⟨p, hmem, hp, rfl⟩,
      (hnext _ (hs.pair hp) (length_unmatched_pair_lt hunmatched)).mpr
        ⟨hmatch, hs.submap_pair hmatch hsub hp hlabel⟩⟩

/-- Elements of one kind are offered all free host elements of that kind. -/
theorem Grown.offersImage_of_mem (hs : Grown pattern host injective s)
    (hf : IsMatch pattern host injective f) (hsub : s.binding.Submap f) {t : Triple}
    {ts us : List Triple} (ht : t ∈ s.unmatched) (hts : t ∈ ts)
    (hus : ∀ u ∈ host.elements, (t.IsNode ↔ u.IsNode) → u ∈ us) :
    OffersImage host ⟨s, s.pairings ts us⟩ f := by
  obtain ⟨htp, hnone⟩ := (hs.mem_unmatched_iff t).mp ht
  obtain ⟨u, hu, hkind, hlabel, -⟩ := hf.isHom.exists_image t htp
  refine ⟨⟨t, u⟩, List.mem_flatMap.mpr ⟨t, hts, List.mem_map_of_mem ?_⟩, ht, hu, hlabel⟩
  exact List.mem_filter.mpr ⟨hus u hu hkind, hs.isFree_of_isMatch hf hsub hnone hlabel⟩

theorem Grown.offersImage_below (hs : Grown pattern host injective s) (hne : s.unmatched ≠ [])
    (hf : IsMatch pattern host injective f) (hsub : s.binding.Submap f) :
    OffersImage host s.below f := by
  unfold below offered
  rw [hs.host_eq]
  by_cases hedges : (s.unmatched.filter Triple.IsEdge).isEmpty = true
  · -- no edge is left, so any unmatched element is a node
    rw [if_pos hedges]
    obtain ⟨t, ht⟩ := List.exists_mem_of_ne_nil _ hne
    have hedge : ¬t.IsEdge := by
      simpa using List.filter_eq_nil_iff.mp (List.isEmpty_iff.mp hedges) t ht
    have hnode : t.IsNode :=
      (pattern.isNode_or_isEdge t ((hs.mem_unmatched_iff t).mp ht).1).resolve_right hedge
    refine hs.offersImage_of_mem hf hsub ht (List.mem_filter.mpr ⟨ht, decide_eq_true hnode⟩) ?_
    exact fun u hu hkind => Graph.mem_nodes_iff.mpr ⟨hu, hkind.mp hnode⟩
  · rw [if_neg hedges]
    obtain ⟨t, ht⟩ := List.exists_mem_of_ne_nil _ fun h => hedges (List.isEmpty_iff.mpr h)
    obtain ⟨hmem, hedge⟩ := List.mem_filter.mp ht
    have hedge : t.IsEdge := of_decide_eq_true hedge
    refine hs.offersImage_of_mem hf hsub hmem ht fun u hu hkind => ?_
    refine Graph.mem_edges_iff.mpr ⟨hu, (Graph.isEdge_iff_not_isNode hu).mpr fun h => ?_⟩
    exact hedge.not_isNode (hkind.mpr h)

/-- **Below a grown partial match lie the matches that extend it.** -/
theorem mem_results_below_iff (hs : Grown pattern host injective s)
    (hdepth : s.unmatched.length < depth) :
    f ∈ space.results depth s.below ↔ IsMatch pattern host injective f ∧ s.binding.Submap f := by
  induction depth generalizing s with
  | zero => exact absurd hdepth (Nat.not_lt_zero _)
  | succ depth ih =>
    by_cases hdone : s.unmatched = []
    · rw [StateSpace.results_of_isDone (isDone_iff.mpr hdone), List.mem_singleton]
      constructor
      · rintro rfl
        exact ⟨hs.isMatch hdone, fun _ _ h => h⟩
      · rintro ⟨hf, hsub⟩
        exact hs.eq_binding hdone hf hsub
    · refine mem_results_succ_iff hs hdone (fun f hf hsub => hs.offersImage_below hdone hf hsub)
        fun s' hs' hlt => ih hs' ?_
      have hlt : s'.unmatched.length < s.unmatched.length := hlt
      omega

end PartialMatch

/-! ## The start -/

section Start

open PartialMatch

variable {pattern host : Graph} {injective : Bool} {f : LabelMap}

theorem length_unmatched_start_le :
    (PartialMatch.start pattern host injective).unmatched.length ≤ pattern.elements.length :=
  length_sortBy_le

theorem unmatched_start_ne_nil (hne : pattern.isEmpty = false) :
    (PartialMatch.start pattern host injective).unmatched ≠ [] := by
  obtain ⟨t, ht⟩ := List.exists_mem_of_ne_nil pattern.elements fun h => by
    rw [Graph.isEmpty_eq_true_iff.mpr h] at hne
    cases hne
  have hmem := (grown_start pattern host injective).mem_unmatched_iff t
  exact List.ne_nil_of_mem (hmem.mpr ⟨ht, LabelMap.get?_empty⟩)

/-- An empty pattern offers nothing to begin with. -/
theorem seedPairings_of_isEmpty (h : pattern.isEmpty = true) : seedPairings pattern host = [] := by
  unfold seedPairings Graph.edges Graph.nodes
  rw [Graph.isEmpty_eq_true_iff.mp h]
  rfl

/-- The element that is paired first is paired with its image. -/
theorem offersImage_growthStart (hne : pattern.isEmpty = false)
    (hf : IsMatch pattern host injective f) :
    OffersImage host (growthStart pattern host injective) f := by
  unfold growthStart seedPairings
  cases hfirst : pattern.edges.head?.or pattern.nodes.head? with
  | none =>
    -- without nodes and edges the pattern would be empty
    rw [Option.or_eq_none_iff, List.head?_eq_none_iff, List.head?_eq_none_iff] at hfirst
    have hnil : pattern.elements = [] := List.eq_nil_iff_forall_not_mem.mpr fun t ht => by
      rcases pattern.isNode_or_isEdge t ht with hnode | hedge
      · exact List.ne_nil_of_mem (Graph.mem_nodes_iff.mpr ⟨ht, hnode⟩) hfirst.2
      · exact List.ne_nil_of_mem (Graph.mem_edges_iff.mpr ⟨ht, hedge⟩) hfirst.1
    rw [Graph.isEmpty_eq_true_iff.mpr hnil] at hne
    cases hne
  | some t =>
    have ht : t ∈ pattern.elements := by
      rcases Option.or_eq_some_iff.mp hfirst with hedge | ⟨-, hnode⟩
      · exact (Graph.mem_edges_iff.mp (List.mem_of_head? hedge)).1
      · exact (Graph.mem_nodes_iff.mp (List.mem_of_head? hnode)).1
    -- all host elements of the kind are seeds, the image among them
    obtain ⟨u, hu, hkind, hlabel, -⟩ := hf.isHom.exists_image t ht
    refine ⟨⟨t, u⟩, List.mem_map_of_mem (List.mem_filter.mpr ⟨hu, decide_eq_true hkind.symm⟩), ?_,
      hu, hlabel⟩
    exact ((grown_start pattern host injective).mem_unmatched_iff t).mpr ⟨ht, LabelMap.get?_empty⟩

/-- **Below the start lie all matches.** -/
theorem mem_results_growthStart_iff (hne : pattern.isEmpty = false) :
    f ∈ space.results (growthDepth pattern) (growthStart pattern host injective) ↔
      IsMatch pattern host injective f := by
  unfold growthDepth
  rw [mem_results_succ_iff (grown_start pattern host injective) (unmatched_start_ne_nil hne)
    (fun f hf _ => offersImage_growthStart hne hf)
    fun s hs hlt => mem_results_below_iff hs (Nat.lt_of_lt_of_le hlt length_unmatched_start_le)]
  refine and_iff_left fun x y hxy => ?_
  cases hxy

/-- The offers that a growth can meet: the start, and grown partial matches that have got further. -/
def Met (pattern host : Graph) (injective : Bool) (offer : Offer PartialMatch Pairing) : Prop :=
  offer = growthStart pattern host injective ∨ ∃ s, Grown pattern host injective s ∧
    s.unmatched.length < (PartialMatch.start pattern host injective).unmatched.length ∧
    offer = s.below

/-- No two offers that a growth can meet have one key. -/
theorem Met.eq_of_key {offer offer' : Offer PartialMatch Pairing} (h : Met pattern host injective offer)
    (h' : Met pattern host injective offer')
    (hkey : space.key offer.state = space.key offer'.state) : offer = offer' := by
  -- the start is apart from the others, because more is unmatched in it
  have hlen : offer.state.unmatched.length = offer'.state.unmatched.length :=
    congrArg (fun k => k.1.length) hkey
  rcases h with rfl | ⟨s, hs, hless, rfl⟩
  · rcases h' with rfl | ⟨s', -, hless', rfl⟩
    · rfl
    · exact absurd hlen (Nat.ne_of_gt hless')
  · rcases h' with rfl | ⟨s', hs', -, rfl⟩
    · exact absurd hlen (Nat.ne_of_lt hless)
    · rw [hs.eq_of_key hs' hkey]

/-- The keys of what a growth can meet are to be trusted. -/
theorem keysDecide_met : space.KeysDecide (Met pattern host injective) := by
  refine StateSpace.keysDecide_of_injective ?_ fun offer offer' => Met.eq_of_key
  -- a step leads to a grown partial match, and further than before
  intro offer hmet _ next hnext
  obtain ⟨p, -, hp, rfl⟩ := mem_successors_iff.mp hnext
  have hlt := length_unmatched_pair_lt hp.unmatched
  rcases hmet with rfl | ⟨s, hs, hless, rfl⟩
  · exact .inr ⟨_, (grown_start pattern host injective).pair hp, hlt, rfl⟩
  · exact .inr ⟨_, hs.pair hp, Nat.lt_trans hlt hless, rfl⟩

/-! ## All matches -/

theorem growMatches_of_seedPairings_eq_nil {remembers : Bool} (h : seedPairings pattern host = []) :
    growMatches pattern host injective remembers = [] := by
  unfold growMatches
  rw [h]
  rfl

/-- The explorer comes to an end, and finds what is below the start. -/
theorem exists_allResults_growthStart (pattern host : Graph) (injective remembers : Bool) :
    ∃ e, (Explorer.new remembers).allResults space (growthDepth pattern)
        (growthStart pattern host injective) =
      some (distinct (space.results (growthDepth pattern) (growthStart pattern host injective)), e) := by
  have hends : space.EndsWithin (growthDepth pattern) (growthStart pattern host injective) :=
    endsWithin_of_length_lt (Nat.lt_succ_of_le length_unmatched_start_le)
  exact Explorer.exists_allResults_new keysDecide_met (.inl rfl) hends remembers

theorem growMatches_eq {remembers : Bool} (h : seedPairings pattern host ≠ []) :
    growMatches pattern host injective remembers =
      distinct (space.results (growthDepth pattern) (growthStart pattern host injective)) := by
  obtain ⟨e, he⟩ := exists_allResults_growthStart pattern host injective remembers
  unfold growMatches
  rw [if_neg fun hnil => h (List.isEmpty_iff.mp hnil), he]
  rfl

/-- **Growing finds exactly the matches.** An empty pattern has none; any other has the injective, or
all, structure-preserving maps. -/
theorem mem_growMatches_iff {remembers : Bool} :
    f ∈ growMatches pattern host injective remembers ↔
      pattern.isEmpty = false ∧ IsMatch pattern host injective f := by
  cases hempty : pattern.isEmpty with
  | true =>
    rw [growMatches_of_seedPairings_eq_nil (seedPairings_of_isEmpty hempty)]
    simp
  | false =>
    by_cases hseeds : seedPairings pattern host = []
    · -- without a seed there is no image for the first element
      rw [growMatches_of_seedPairings_eq_nil hseeds]
      refine iff_of_false (by simp) ?_
      rintro ⟨-, hf⟩
      obtain ⟨p, hp, -⟩ := offersImage_growthStart hempty hf
      exact List.ne_nil_of_mem hp hseeds
    · rw [growMatches_eq hseeds, mem_distinct_iff, mem_results_growthStart_iff hempty]
      simp

theorem nodup_growMatches {remembers : Bool} :
    (growMatches pattern host injective remembers).Nodup := by
  by_cases hseeds : seedPairings pattern host = []
  · rw [growMatches_of_seedPairings_eq_nil hseeds]
    exact List.nodup_nil
  · rw [growMatches_eq hseeds]
    exact nodup_distinct

end Start

/-! ## The matcher -/

/-- Growing finds maps whose pairs list the matches, from whatever supply they are named. -/
theorem MatcherConfig.exists_allPairs_growth {c : MatcherConfig} (hengine : c.engine = .growth)
    {pattern : Graph} (hne : pattern.isEmpty = false) (host : Graph) (injective : Bool) :
    ∃ l, c.allPairs pattern host injective = .ok l ∧ ∀ names : NameSupply, ∃ ms,
      (names.morphisms pattern host l).1 = .ok ms ∧
      ListsMaps pattern host (IsMatch pattern host injective) ms := by
  have hmem : ∀ f, f ∈ growMatches pattern host injective c.stateHashing ↔
      IsMatch pattern host injective f := fun f => by
    rw [mem_growMatches_iff]
    exact and_iff_right hne
  refine ⟨(growMatches pattern host injective c.stateHashing).map LabelMap.pairs, ?_, fun names => ?_⟩
  · unfold allPairs
    rw [hengine]
  · obtain ⟨ms, hms, hlists⟩ := names.exists_morphisms_pairs
      (fun f hf => ((hmem f).mp hf).isHom) nodup_growMatches
    exact ⟨ms, hms, hlists.congr hmem⟩

namespace Matcher

theorem exists_allMatches_growth {m : Matcher} (hengine : m.config.engine = .growth)
    {pattern : Graph} (hne : pattern.isEmpty = false) (host : Graph) (injective : Bool) :
    ∃ ms, (m.allMatches pattern host injective).1 = .ok ms ∧
      ListsMaps pattern host (IsMatch pattern host injective) ms := by
  obtain ⟨l, hl, hnamed⟩ := MatcherConfig.exists_allPairs_growth hengine hne host injective
  obtain ⟨ms, hms, hlists⟩ := hnamed m.names
  exact ⟨ms, allMatches_of_allPairs hne hl hms, hlists⟩

/-- **Growing and solving agree.** Growing finds the structure-preserving maps, the injective ones if
this is asked, each once and none of an empty pattern, whether or not it remembers. A matcher that
grows never fails, and finds as many matches as one that solves, with the same maps. -/
theorem allMatches_growth_perm_constraints {grower solver : Matcher}
    (hgrower : grower.config.engine = .growth) (hsolver : solver.config.engine = .constraints)
    (pattern host : Graph) (injective : Bool) :
    (∀ remembers, (growMatches pattern host injective remembers).Nodup ∧
      ∀ f, f ∈ growMatches pattern host injective remembers ↔
        pattern.isEmpty = false ∧ IsMatch pattern host injective f) ∧
    ∃ ms ms', (grower.allMatches pattern host injective).1 = .ok ms ∧
      (solver.allMatches pattern host injective).1 = .ok ms' ∧
      ms.length = ms'.length ∧
      (ms.map Morphism.mapping).Perm (ms'.map Morphism.mapping) := by
  refine ⟨fun remembers => ⟨nodup_growMatches, fun f => mem_growMatches_iff⟩, ?_⟩
  cases hempty : pattern.isEmpty with
  | true =>
    exact ⟨[], [], allMatches_of_isEmpty hempty, allMatches_of_isEmpty hempty, rfl,
      List.Perm.refl _⟩
  | false =>
    obtain ⟨ms, hms, hlists⟩ := exists_allMatches_growth hgrower hempty host injective
    obtain ⟨ms', hms', hlists'⟩ := exists_allMatches_constraints hsolver hempty host injective
    have hperm := hlists.perm hlists'
    refine ⟨ms, ms', hms, hms', ?_, hperm⟩
    simpa using hperm.length_eq

/-- A pattern of two edges in a row, in a host with a loop, a way out of it and a lone node. -/
theorem allMatches_growth_perm_constraints_loop :
    ∃ pattern host,
      Graph.ofEntries ⟨"P"⟩ [.edge ⟨⟨"x"⟩, ⟨"e"⟩, ⟨"y"⟩⟩, .edge ⟨⟨"y"⟩, ⟨"f"⟩, ⟨"z"⟩⟩] = .ok pattern ∧
      Graph.ofEntries ⟨"H"⟩ [.edge ⟨⟨"a"⟩, ⟨"1"⟩, ⟨"a"⟩⟩, .edge ⟨⟨"a"⟩, ⟨"2"⟩, ⟨"b"⟩⟩, .node ⟨"c"⟩] =
        .ok host ∧
      (Matcher.new ⟨.growth, true⟩).config.engine = .growth ∧
      (Matcher.new .default).config.engine = .constraints ∧
      ∃ ms ms', ((Matcher.new ⟨.growth, true⟩).allMatches pattern host false).1 = .ok ms ∧
        ((Matcher.new .default).allMatches pattern host false).1 = .ok ms' ∧
        ms.length = ms'.length ∧
        (ms.map Morphism.mapping).Perm (ms'.map Morphism.mapping) :=
  ⟨_, _, rfl, rfl, rfl, rfl, (allMatches_growth_perm_constraints rfl rfl _ _ _).2⟩

end Matcher

end GraphHom
