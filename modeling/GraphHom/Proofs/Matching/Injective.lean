import GraphHom.Proofs.Matching.Growing
import GraphHom.Proofs.Matching.Reached

/-!
# Growing injective matches

A growth that must be injective follows the growth that need not be, and leaves branches out. At every
partial match it offers fewer pairings and refuses more, but what it refuses in addition is exactly what
would give two labels one image (`Grown.canApply_iff_relax`). Nothing below such a pairing is injective,
for labels that share an image go on sharing it (`Grown.not_injective_of_mem_results`).

So below every partial match an injective growth finds the injective ones among the matches, in the order
in which they are found without the restriction (`Grown.results_below_relax`). This goes for the start too,
and hence for the matches that are listed (`growMatches_injective_eq_filter`).
-/

namespace GraphHom

/-- Going through fewer elements gives the same, if those left out give nothing. -/
theorem flatMap_filter_of_forall {α β : Type} {l : List α} {kept all : α → Bool}
    {g g' : α → List β}
    (hkept : ∀ a ∈ l, kept a = true → all a = true ∧ g a = g' a)
    (hdropped : ∀ a ∈ l, all a = true → kept a = false → g' a = []) :
    (l.filter kept).flatMap g = (l.filter all).flatMap g' := by
  induction l with
  | nil => rfl
  | cons a l ih =>
    have ih := ih (fun b hb => hkept b (List.mem_cons_of_mem a hb))
      fun b hb => hdropped b (List.mem_cons_of_mem a hb)
    cases hk : kept a with
    | true =>
      obtain ⟨hall, heq⟩ := hkept a List.mem_cons_self hk
      rw [List.filter_cons_of_pos hk, List.filter_cons_of_pos hall, List.flatMap_cons,
        List.flatMap_cons, heq, ih]
    | false =>
      rw [List.filter_cons_of_neg (by simp [hk]), ih]
      cases hall : all a with
      | true =>
        rw [List.filter_cons_of_pos hall, List.flatMap_cons,
          hdropped a List.mem_cons_self hall hk, List.nil_append]
      | false => rw [List.filter_cons_of_neg (by simp [hall])]

/-! ## Injective label maps -/

namespace LabelMap

variable {m f : LabelMap}

theorem nodup_pairs : m.pairs.Nodup := by
  have hlt : m.pairs.Pairwise fun p q => p.1 < q.1 := m.ascending
  refine hlt.imp fun {p q} h heq => ?_
  rw [heq] at h
  exact Std.lt_irrefl h

/-- Different labels have different images if no image is listed twice. -/
theorem injective_iff_nodup : m.Injective ↔ (m.pairs.map Prod.snd).Nodup := by
  rw [List.nodup_map_iff_inj_on nodup_pairs]
  constructor
  · rintro h ⟨x, y⟩ hx ⟨x', y'⟩ hx' heq
    have hy : y = y' := heq
    subst hy
    rw [h x x' y (get?_eq_some_iff.mpr hx) (get?_eq_some_iff.mpr hx')]
  · intro h x x' y hx hx'
    exact congrArg Prod.fst (h (x, y) (get?_eq_some_iff.mp hx) (x', y) (get?_eq_some_iff.mp hx') rfl)

instance : Decidable m.Injective := decidable_of_iff _ injective_iff_nodup.symm

/-- Labels that share an image share it under every map with more pairs. -/
theorem Injective.of_submap (h : f.Injective) (hsub : m.Submap f) : m.Injective :=
  fun x x' y hx hx' => h x x' y (hsub x y hx) (hsub x' y hx')

end LabelMap

namespace PartialMatch

variable {pattern host : Graph} {injective : Bool} {s : PartialMatch} {p : Pairing} {f : LabelMap}
variable {choices choices' : List Pairing} {depth : Nat}

/-! ## Lifting the restriction -/

/-- The same partial match, in which labels may have one image from now on. -/
def relax (s : PartialMatch) : PartialMatch := { s with injective := false }

@[simp] theorem host_relax : s.relax.host = s.host := rfl

@[simp] theorem binding_relax : s.relax.binding = s.binding := rfl

@[simp] theorem unmatched_relax : s.relax.unmatched = s.unmatched := rfl

theorem pair_relax : s.relax.pair p = (s.pair p).relax := rfl

theorem Grown.relax (h : Grown pattern host true s) : Grown pattern host false s.relax where
  ascending := h.ascending
  mem_used_iff := h.mem_used_iff
  binding_injective hfalse := by cases hfalse
  host_eq := h.host_eq
  injective_eq := rfl
  mem_unmatched_iff := h.mem_unmatched_iff
  mem_labels := h.mem_labels
  exists_image := h.exists_image

/-- **What the restriction refuses.** A pairing may be added to an injective match if it could be added
without the restriction and gives no two labels one image. -/
theorem Grown.canApply_iff_relax (h : Grown pattern host true s) :
    s.canApply p = true ↔ s.relax.canApply p = true ∧ (s.pair p).binding.Injective := by
  constructor
  · intro hp
    have hadmissible : s.Admissible p := PartialMatch.canApply_iff.mp hp
    obtain ⟨hunmatched, hhost, hkind, hc⟩ := h.canApply_iff.mp hp
    refine ⟨h.relax.canApply_iff.mpr ⟨hunmatched, hhost, hkind, hc.function, ?_⟩, ?_⟩
    · intro hfalse
      cases hfalse
    · exact (h.pair hadmissible).binding_injective (h.pair hadmissible).injective_eq
  · rintro ⟨hp, hinj⟩
    have hadmissible : s.relax.Admissible p := PartialMatch.canApply_iff.mp hp
    obtain ⟨hunmatched, hhost, hkind, hc⟩ := h.relax.canApply_iff.mp hp
    refine h.canApply_iff.mpr ⟨hunmatched, hhost, hkind, hc.function, fun _ x x' y hx hx' => ?_⟩
    exact hinj x x' y ((h.relax.get?_pair_iff hadmissible).mpr hx)
      ((h.relax.get?_pair_iff hadmissible).mpr hx')

/-! ## What is offered -/

theorem isFree_relax (y : Name) : s.relax.isFree y = true := rfl

/-- With the restriction the host elements whose labels are used are not offered. -/
theorem pairings_eq_filter (ts us : List Triple) :
    s.pairings ts us = (s.relax.pairings ts us).filter fun p => s.isFree p.host.label := by
  unfold pairings
  rw [List.filter_flatMap]
  refine List.flatMap_congr fun t _ => ?_
  rw [List.filter_map, List.filter_filter]
  refine congrArg _ (List.filter_congr fun u _ => ?_)
  rw [isFree_relax, Bool.and_true]
  rfl

theorem offered_eq_filter : s.offered = s.relax.offered.filter fun p => s.isFree p.host.label := by
  unfold offered
  rw [unmatched_relax, host_relax]
  by_cases hedges : (s.unmatched.filter Triple.IsEdge).isEmpty = true
  · rw [if_pos hedges, if_pos hedges]
    exact pairings_eq_filter _ _
  · rw [if_neg hedges, if_neg hedges]
    exact pairings_eq_filter _ _

/-- What is not offered because of the restriction would be refused. -/
theorem filter_canApply_offered :
    s.offered.filter s.canApply = s.relax.offered.filter s.canApply := by
  rw [offered_eq_filter, List.filter_filter]
  refine List.filter_congr fun p _ => ?_
  cases hp : s.canApply p with
  | false => rfl
  | true => rw [(canApply_iff.mp hp).free, Bool.and_true]

/-! ## What is found -/

/-- Below a partial match in which two labels have one image there is no injective match. -/
theorem Grown.not_injective_of_mem_results (h : Grown pattern host injective s)
    (hdepth : s.unmatched.length < depth) (hinj : ¬s.binding.Injective)
    (hf : f ∈ space.results depth s.below) : ¬f.Injective :=
  fun hfinj => hinj (hfinj.of_submap ((mem_results_below_iff h hdepth).mp hf).2)

/-- One step: if what is offered differs only in what would be refused, and below each pairing the
injective matches are found, then they are found below the offer. -/
theorem Grown.results_succ_relax (h : Grown pattern host true s) (hne : s.unmatched ≠ [])
    (hdepth : s.unmatched.length < depth + 1)
    (hchoices : choices.filter s.canApply = choices'.filter s.canApply)
    (hnext : ∀ s', Grown pattern host true s' → s'.unmatched.length < depth →
      space.results depth s'.below =
        (space.results depth s'.relax.below).filter fun f => f.Injective) :
    space.results (depth + 1) ⟨s, choices⟩ =
      (space.results (depth + 1) ⟨s.relax, choices'⟩).filter fun f => f.Injective := by
  have hdone : ¬space.isDone s = true := fun hdone => hne (isDone_iff.mp hdone)
  have hinjective : space.results (depth + 1) ⟨s, choices⟩ =
      (space.successors ⟨s, choices⟩).flatMap (space.results depth) :=
    StateSpace.results_of_not_isDone hdone
  have hrelaxed : space.results (depth + 1) ⟨s.relax, choices'⟩ =
      (space.successors ⟨s.relax, choices'⟩).flatMap (space.results depth) :=
    StateSpace.results_of_not_isDone hdone
  rw [hinjective, hrelaxed, List.filter_flatMap]
  show ((choices.filter s.canApply).map fun p => (s.pair p).below).flatMap (space.results depth) =
    ((choices'.filter s.relax.canApply).map fun p => (s.pair p).relax.below).flatMap _
  rw [hchoices, List.flatMap_map, List.flatMap_map]
  have hless : ∀ p, s.relax.canApply p = true → (s.pair p).unmatched.length < depth := by
    intro p hp
    have hlt : (s.pair p).unmatched.length < s.unmatched.length :=
      length_unmatched_pair_lt (PartialMatch.canApply_iff.mp hp).unmatched
    omega
  refine flatMap_filter_of_forall (fun p _ hp => ?_) fun p _ hp hrefused => ?_
  · -- a pairing made in both growths: below it the injective matches are found
    have hrelax : s.relax.canApply p = true := (h.canApply_iff_relax.mp hp).1
    exact ⟨hrelax, hnext _ (h.pair (PartialMatch.canApply_iff.mp hp)) (hless p hrelax)⟩
  · -- a pairing refused by the restriction: below it there are none
    have hinj : ¬(s.pair p).relax.binding.Injective := by
      intro hinj
      rw [h.canApply_iff_relax.mpr ⟨hp, hinj⟩] at hrefused
      cases hrefused
    have hgrown : Grown pattern host false (s.pair p).relax := by
      rw [← pair_relax]
      exact h.relax.pair (PartialMatch.canApply_iff.mp hp)
    refine List.filter_eq_nil_iff.mpr fun f hf => ?_
    rw [decide_eq_true_eq]
    exact hgrown.not_injective_of_mem_results (hless p hp) hinj hf

/-- **Below a partial match the restriction keeps the injective matches, in their order.** -/
theorem Grown.results_below_relax (h : Grown pattern host true s)
    (hdepth : s.unmatched.length < depth) :
    space.results depth s.below =
      (space.results depth s.relax.below).filter fun f => f.Injective := by
  induction depth generalizing s with
  | zero => exact absurd hdepth (Nat.not_lt_zero _)
  | succ depth ih =>
    by_cases hall : s.unmatched = []
    · -- done: the binding is the only match, and it is injective
      have hdone : space.isDone s = true := isDone_iff.mpr hall
      have hinj : s.binding.Injective := h.binding_injective h.injective_eq
      have hinjective : space.results (depth + 1) s.below = [s.binding] :=
        StateSpace.results_of_isDone hdone
      have hrelaxed : space.results (depth + 1) s.relax.below = [s.binding] :=
        StateSpace.results_of_isDone hdone
      rw [hinjective, hrelaxed]
      refine (List.filter_eq_self.mpr fun f hf => ?_).symm
      rw [List.mem_singleton.mp hf]
      exact decide_eq_true hinj
    · exact h.results_succ_relax hall hdepth filter_canApply_offered fun s' h' hless => ih h' hless

end PartialMatch

open PartialMatch

/-- The first pairings are the same with and without the restriction. -/
theorem results_growthStart_injective {pattern : Graph} (hne : pattern.isEmpty = false) (host : Graph) :
    space.results (growthDepth pattern) (growthStart pattern host true) =
      (space.results (growthDepth pattern) (growthStart pattern host false)).filter
        fun f => f.Injective :=
  (grown_start pattern host true).results_succ_relax (unmatched_start_ne_nil hne)
    (Nat.lt_succ_of_le length_unmatched_start_le) rfl fun _ h hless => h.results_below_relax hless

theorem growMatches_injective (pattern host : Graph) (remembers : Bool) :
    growMatches pattern host true remembers =
      (growMatches pattern host false remembers).filter fun f => f.Injective := by
  by_cases hseeds : seedPairings pattern host = []
  · rw [growMatches_of_seedPairings_eq_nil hseeds, growMatches_of_seedPairings_eq_nil hseeds]
    rfl
  · have hne : pattern.isEmpty = false :=
      Bool.eq_false_iff.mpr fun hempty => hseeds (seedPairings_of_isEmpty hempty)
    rw [growMatches_eq hseeds, growMatches_eq hseeds, results_growthStart_injective hne,
      filter_distinct]

/-- **The injective matches are the injective ones among all matches, in the same order.** With memory or
without, a growth that must be injective lists what a growth without this restriction lists, save the maps
that give two labels one image; and what that one lists are all the structure-preserving maps. -/
theorem growMatches_injective_eq_filter (pattern host : Graph) (remembers : Bool) :
    growMatches pattern host true remembers =
      (growMatches pattern host false remembers).filter (fun f => f.Injective) ∧
    ∀ f, f ∈ growMatches pattern host false remembers ↔
      pattern.isEmpty = false ∧ IsHom pattern host f := by
  refine ⟨growMatches_injective pattern host remembers, fun f => ?_⟩
  rw [mem_growMatches_iff]
  refine and_congr_right fun _ => ⟨IsMatch.isHom, fun hf => ⟨hf, fun hfalse => ?_⟩⟩
  cases hfalse

end GraphHom
