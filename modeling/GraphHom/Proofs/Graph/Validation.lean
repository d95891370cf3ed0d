import GraphHom.Proofs.Graph.Construction
import GraphHom.Proofs.Morphism.Construction

/-!
# Which triples make a graph, and why others do not

A list of triples makes a graph if it is well formed (`Graph.WellFormed`,
`Graph.exists_ofTriples_iff_wellFormed`). Any other list is refused, for one reason only (`Graph.Refuses`):
the least triple that is malformed or repeats a label, or else the dangling edge with the least label. The
reason is stated without saying how it is looked for, and `Graph.ofTriples` gives it
(`Graph.ofTriples_eq_error_iff`).

Order and repetition of the triples cannot be told from the answer (`Graph.ofTriples_congr`).
-/

namespace GraphHom

/-- In an ascending list the first element with an answer is the least one. -/
theorem Ascending.findSome?_eq_some_iff {α β κ : Type} [LT κ]
    [@Trans κ κ κ (· < ·) (· < ·) (· < ·)] [@Std.Irrefl κ (· < ·)] {key : α → κ} {l : List α}
    {f : α → Option β} {b : β} (h : Ascending key l) :
    l.findSome? f = some b ↔ ∃ a ∈ l, f a = some b ∧ ∀ c ∈ l, key c < key a → f c = none := by
  induction l with
  | nil => simp
  | cons x l ih =>
    obtain ⟨hx, hl⟩ := List.pairwise_cons.mp h
    rw [List.findSome?_cons]
    cases hfx : f x with
    | none =>
      simp only
      rw [ih hl]
      constructor
      · rintro ⟨a, ha, hfa, hleast⟩
        refine ⟨a, List.mem_cons_of_mem x ha, hfa, fun c hc hlt => ?_⟩
        rcases List.mem_cons.mp hc with rfl | hc
        · exact hfx
        · exact hleast c hc hlt
      · rintro ⟨a, ha, hfa, hleast⟩
        rcases List.mem_cons.mp ha with rfl | ha
        · rw [hfx] at hfa
          cases hfa
        · exact ⟨a, ha, hfa, fun c hc => hleast c (List.mem_cons_of_mem x hc)⟩
    | some y =>
      constructor
      · intro heq
        refine ⟨x, List.mem_cons_self, hfx.trans heq, fun c hc hlt => ?_⟩
        rcases List.mem_cons.mp hc with rfl | hc
        · exact absurd hlt Std.lt_irrefl
        · exact absurd (Std.lt_trans hlt (hx c hc)) Std.lt_irrefl
      · rintro ⟨a, ha, hfa, hleast⟩
        rcases List.mem_cons.mp ha with rfl | ha
        · exact hfx.symm.trans hfa
        · have hnone : f x = none := hleast x List.mem_cons_self (hx a ha)
          rw [hfx] at hnone
          cases hnone

namespace Graph

variable {name : Name} {l l' : List Triple} {g : Graph} {t : Triple} {error : BuildError}

/-! ## What is right and what is wrong with a list of triples -/

/-- The triples are nodes and edges, no two with one label, and the ends of the edges are there. -/
structure WellFormed (l : List Triple) : Prop where
  /-- Every triple is a node or an edge. -/
  kinds : ∀ t ∈ l, t.IsNode ∨ t.IsEdge
  /-- Different triples have different labels. -/
  labels : ∀ t ∈ l, ∀ u ∈ l, t ≠ u → t.label ≠ u.label
  /-- Both ends of an edge are listed as nodes. -/
  ends : ∀ t ∈ l, t.IsEdge → Triple.node t.source ∈ l ∧ Triple.node t.target ∈ l

/-- A triple is neither a node nor an edge, or a lesser one has its label. -/
def IsDefective (l : List Triple) (t : Triple) : Prop :=
  ¬(t.IsNode ∨ t.IsEdge) ∨ ∃ u ∈ l, u < t ∧ u.label = t.label

/-- A triple is an edge of which an end is not listed as a node. -/
def IsDangling (l : List Triple) (t : Triple) : Prop :=
  t.IsEdge ∧ ¬(Triple.node t.source ∈ l ∧ Triple.node t.target ∈ l)

instance : Decidable (IsDefective l t) := inferInstanceAs (Decidable (_ ∨ _))

instance : Decidable (IsDangling l t) := inferInstanceAs (Decidable (_ ∧ _))

/-- The reason why a list of triples makes no graph: what is wrong with its least defective triple, or, if
there is none, with its dangling edge that has the least label. -/
inductive Refuses (name : Name) (l : List Triple) : BuildError → Prop
  /-- The least defective triple is neither a node nor an edge. -/
  | malformed {t : Triple} (ht : t ∈ l) (hleast : ∀ u ∈ l, u < t → ¬IsDefective l u)
      (hkind : ¬(t.IsNode ∨ t.IsEdge)) : Refuses name l (.malformedTriple name t)
  /-- The least defective triple repeats the label of a lesser one. -/
  | repeated {t u : Triple} (ht : t ∈ l) (hleast : ∀ u ∈ l, u < t → ¬IsDefective l u)
      (hkind : t.IsNode ∨ t.IsEdge) (hu : u ∈ l) (hlt : u < t) (hlabel : u.label = t.label) :
      Refuses name l (.duplicateLabel name t.label)
  /-- The source of the first dangling edge is missing. -/
  | sourceless {t : Triple} (hclean : ∀ u ∈ l, ¬IsDefective l u) (ht : t ∈ l) (hedge : t.IsEdge)
      (hleast : ∀ u ∈ l, u.label < t.label → ¬IsDangling l u) (hsource : Triple.node t.source ∉ l) :
      Refuses name l (.danglingEdge name t.label t.source)
  /-- The target of the first dangling edge is missing, but not its source. -/
  | targetless {t : Triple} (hclean : ∀ u ∈ l, ¬IsDefective l u) (ht : t ∈ l) (hedge : t.IsEdge)
      (hleast : ∀ u ∈ l, u.label < t.label → ¬IsDangling l u) (hsource : Triple.node t.source ∈ l)
      (htarget : Triple.node t.target ∉ l) : Refuses name l (.danglingEdge name t.label t.target)

/-! ## One triple -/

theorem defect_eq_none_iff : defect name l t = none ↔ ¬IsDefective l t := by
  unfold defect IsDefective
  split
  · rename_i hkind
    simp [hkind]
  · split
    · rename_i hrepeats
      simp [hrepeats]
    · rename_i hkind hrepeats
      simp only [true_iff]
      exact fun h => h.elim hkind hrepeats

theorem defect_eq_some_iff : defect name l t = some error ↔
    (¬(t.IsNode ∨ t.IsEdge) ∧ error = .malformedTriple name t) ∨
    ((t.IsNode ∨ t.IsEdge) ∧ (∃ u ∈ l, u < t ∧ u.label = t.label) ∧
      error = .duplicateLabel name t.label) := by
  unfold defect
  by_cases hkind : t.IsNode ∨ t.IsEdge
  · rw [if_neg (not_not_intro hkind)]
    split
    · rename_i hrepeats
      simp only [hkind, hrepeats, Option.some.injEq, not_true_eq_false, false_and, true_and, false_or]
      exact eq_comm
    · rename_i hrepeats
      simp [hkind, hrepeats]
  · simp [hkind, eq_comm]

theorem danglingEnd_eq_some_iff : danglingEnd name l t = some error ↔
    (Triple.node t.source ∉ l ∧ error = .danglingEdge name t.label t.source) ∨
    (Triple.node t.source ∈ l ∧ Triple.node t.target ∉ l ∧
      error = .danglingEdge name t.label t.target) := by
  unfold danglingEnd
  by_cases hsource : Triple.node t.source ∈ l
  · by_cases htarget : Triple.node t.target ∈ l <;> simp [hsource, htarget, eq_comm]
  · simp [hsource, eq_comm]

/-- Only edges can dangle: a node is its own end. -/
theorem danglingEnd_eq_none_iff (ht : t ∈ l) (hkind : t.IsNode ∨ t.IsEdge) :
    danglingEnd name l t = none ↔ ¬IsDangling l t := by
  constructor
  · intro hnone hdangling
    exact hdangling.2 (ends_mem_of_danglingEnd_eq_none hnone)
  · intro h
    rcases hkind with hnode | hedge
    · have hself : Triple.node t.label ∈ l := Triple.isNode_iff.mp hnode ▸ ht
      exact danglingEnd_eq_none (hnode.1 ▸ hself) (hnode.2 ▸ hself)
    · obtain ⟨hsource, htarget⟩ := Decidable.not_not.mp fun hends => h ⟨hedge, hends⟩
      exact danglingEnd_eq_none hsource htarget

/-! ## The two passes -/

/-- What is looked for among the triples, in their own order. -/
def firstDefect (name : Name) (l : List Triple) : Option BuildError :=
  (sortBy id l).findSome? (defect name (sortBy id l))

/-- What is looked for among the elements, in the order of their labels. -/
def firstDanglingEnd (name : Name) (l : List Triple) : Option BuildError :=
  (sortBy Triple.label (sortBy id l)).findSome?
    (danglingEnd name (sortBy Triple.label (sortBy id l)))

theorem ofTriples_eq_error_iff_first : ofTriples name l = .error error ↔
    firstDefect name l = some error ∨
      (firstDefect name l = none ∧ firstDanglingEnd name l = some error) := by
  unfold ofTriples firstDefect firstDanglingEnd
  dsimp only
  split
  · rename_i found hfound
    simp [hfound]
  · rename_i hnone
    split
    · rename_i found hfound
      simp [hnone, hfound]
    · rename_i hnone'
      simp [hnone, hnone']

theorem firstDefect_eq_some_iff : firstDefect name l = some error ↔
    ∃ t ∈ l, defect name l t = some error ∧ ∀ u ∈ l, u < t → ¬IsDefective l u := by
  have hdefect : defect name (sortBy id l) = defect name l := by
    funext t
    simp only [defect, mem_sortBy_id_iff]
  have hasc : Ascending id (sortBy id l) := Ascending.sortBy
  rw [firstDefect, hdefect, hasc.findSome?_eq_some_iff]
  simp only [mem_sortBy_id_iff, id_eq, defect_eq_none_iff]

theorem firstDefect_eq_none_iff : firstDefect name l = none ↔ ∀ t ∈ l, ¬IsDefective l t := by
  have hdefect : defect name (sortBy id l) = defect name l := by
    funext t
    simp only [defect, mem_sortBy_id_iff]
  rw [firstDefect, hdefect, List.findSome?_eq_none_iff]
  simp only [mem_sortBy_id_iff, defect_eq_none_iff]

/-- Without defects, different triples have different labels. -/
theorem eq_of_forall_not_isDefective (h : ∀ t ∈ l, ¬IsDefective l t) :
    ∀ t ∈ l, ∀ u ∈ l, t.label = u.label → t = u := by
  have hnone : ∀ t ∈ l, defect ⟨""⟩ l t = none := fun t ht => defect_eq_none_iff.mpr (h t ht)
  exact eq_of_defect_eq_none hnone

theorem firstDanglingEnd_eq_some_iff (hclean : ∀ t ∈ l, ¬IsDefective l t) :
    firstDanglingEnd name l = some error ↔
      ∃ t ∈ l, danglingEnd name l t = some error ∧ ∀ u ∈ l, u.label < t.label → ¬IsDangling l u := by
  have hmem : ∀ t, t ∈ sortBy Triple.label (sortBy id l) ↔ t ∈ l := by
    intro t
    have hinj : ∀ t ∈ sortBy id l, ∀ u ∈ sortBy id l, t.label = u.label → t = u := by
      simp only [mem_sortBy_id_iff]
      exact eq_of_forall_not_isDefective hclean
    rw [mem_sortBy_iff hinj, mem_sortBy_id_iff]
  have hend : danglingEnd name (sortBy Triple.label (sortBy id l)) = danglingEnd name l := by
    funext t
    simp only [danglingEnd, hmem]
  have hasc : Ascending Triple.label (sortBy Triple.label (sortBy id l)) := Ascending.sortBy
  have hkind : ∀ t ∈ l, t.IsNode ∨ t.IsEdge := by
    intro t ht
    exact Decidable.not_not.mp fun hkind => hclean t ht (.inl hkind)
  rw [firstDanglingEnd, hend, hasc.findSome?_eq_some_iff]
  simp only [hmem]
  refine exists_congr fun t => and_congr_right fun _ => and_congr_right fun _ =>
    forall_congr' fun u => forall_congr' fun hu => ?_
  rw [danglingEnd_eq_none_iff hu (hkind u hu)]

/-! ## Answers -/

/-- **Why a list of triples makes no graph** is one thing, and it is what is reported. -/
theorem ofTriples_eq_error_iff : ofTriples name l = .error error ↔ Refuses name l error := by
  rw [ofTriples_eq_error_iff_first, firstDefect_eq_some_iff, firstDefect_eq_none_iff]
  constructor
  · rintro (⟨t, ht, hsome, hleast⟩ | ⟨hclean, hsome⟩)
    · rcases defect_eq_some_iff.mp hsome with ⟨hkind, rfl⟩ | ⟨hkind, ⟨u, hu, hlt, hlabel⟩, rfl⟩
      · exact .malformed ht hleast hkind
      · exact .repeated ht hleast hkind hu hlt hlabel
    · obtain ⟨t, ht, hend, hleast⟩ := (firstDanglingEnd_eq_some_iff hclean).mp hsome
      -- a node among the triples is its own end, so what has a missing end is an edge
      have hedge : t.IsEdge := by
        have hkind : t.IsNode ∨ t.IsEdge := Decidable.not_not.mp fun h => hclean t ht (.inl h)
        refine (Decidable.not_not.mp fun hdangling => ?_ : IsDangling l t).1
        rw [(danglingEnd_eq_none_iff ht hkind).mpr hdangling] at hend
        cases hend
      rcases danglingEnd_eq_some_iff.mp hend with ⟨hsource, rfl⟩ | ⟨hsource, htarget, rfl⟩
      · exact .sourceless hclean ht hedge hleast hsource
      · exact .targetless hclean ht hedge hleast hsource htarget
  · intro h
    cases h with
    | malformed ht hleast hkind =>
      exact .inl ⟨_, ht, defect_eq_some_iff.mpr (.inl ⟨hkind, rfl⟩), hleast⟩
    | repeated ht hleast hkind hu hlt hlabel =>
      exact .inl ⟨_, ht, defect_eq_some_iff.mpr (.inr ⟨hkind, ⟨_, hu, hlt, hlabel⟩, rfl⟩), hleast⟩
    | sourceless hclean ht _ hleast hsource =>
      refine .inr ⟨hclean, (firstDanglingEnd_eq_some_iff hclean).mpr ⟨_, ht, ?_, hleast⟩⟩
      exact danglingEnd_eq_some_iff.mpr (.inl ⟨hsource, rfl⟩)
    | targetless hclean ht _ hleast hsource htarget =>
      refine .inr ⟨hclean, (firstDanglingEnd_eq_some_iff hclean).mpr ⟨_, ht, ?_, hleast⟩⟩
      exact danglingEnd_eq_some_iff.mpr (.inr ⟨hsource, htarget, rfl⟩)

/-- **The lists of triples that make a graph** are the well-formed ones. -/
theorem exists_ofTriples_iff_wellFormed : (∃ g, ofTriples name l = .ok g) ↔ WellFormed l := by
  constructor
  · rintro ⟨g, hg⟩
    obtain ⟨-, hmem⟩ := mem_elements_of_ofTriples hg
    refine ⟨fun t ht => g.isNode_or_isEdge t ((hmem t).mpr ht), ?_, ?_⟩
    · intro t ht u hu hne hlabel
      exact hne (eq_of_label ((hmem t).mpr ht) ((hmem u).mpr hu) hlabel)
    · intro t ht _
      obtain ⟨hsource, htarget⟩ := g.ends_mem t ((hmem t).mpr ht)
      exact ⟨(hmem _).mp hsource, (hmem _).mp htarget⟩
  · intro h
    refine exists_ofTriples name h.kinds (fun t ht u hu hlabel => ?_) fun t ht => ?_
    · exact Decidable.not_not.mp fun hne => h.labels t ht u hu hne hlabel
    · rcases h.kinds t ht with hnode | hedge
      · have hself : Triple.node t.label ∈ l := Triple.isNode_iff.mp hnode ▸ ht
        exact ⟨hnode.1 ▸ hself, hnode.2 ▸ hself⟩
      · exact h.ends t ht hedge

/-! ## Order and repetition -/

theorem isDefective_congr (h : ∀ t, t ∈ l ↔ t ∈ l') : IsDefective l t ↔ IsDefective l' t := by
  simp only [IsDefective, h]

theorem isDangling_congr (h : ∀ t, t ∈ l ↔ t ∈ l') : IsDangling l t ↔ IsDangling l' t := by
  simp only [IsDangling, h]

theorem Refuses.congr (h : ∀ t, t ∈ l ↔ t ∈ l') (hl : Refuses name l error) :
    Refuses name l' error := by
  have hdefective : ∀ t, IsDefective l t ↔ IsDefective l' t := fun _ => isDefective_congr h
  have hdangling : ∀ t, IsDangling l t ↔ IsDangling l' t := fun _ => isDangling_congr h
  cases hl with
  | malformed ht hleast hkind =>
    simp only [h, hdefective] at ht hleast
    exact .malformed ht hleast hkind
  | repeated ht hleast hkind hu hlt hlabel =>
    simp only [h, hdefective] at ht hleast hu
    exact .repeated ht hleast hkind hu hlt hlabel
  | sourceless hclean ht hedge hleast hsource =>
    simp only [h, hdefective, hdangling] at hclean ht hleast hsource
    exact .sourceless hclean ht hedge hleast hsource
  | targetless hclean ht hedge hleast hsource htarget =>
    simp only [h, hdefective, hdangling] at hclean ht hleast hsource htarget
    exact .targetless hclean ht hedge hleast hsource htarget

theorem WellFormed.congr (h : ∀ t, t ∈ l ↔ t ∈ l') (hl : WellFormed l) : WellFormed l' := by
  obtain ⟨hkinds, hlabels, hends⟩ := hl
  simp only [h] at hkinds hlabels hends
  exact ⟨hkinds, hlabels, hends⟩

/-- Lists with the same triples have the same answer. -/
theorem ofTriples_congr (h : ∀ t, t ∈ l ↔ t ∈ l') : ofTriples name l = ofTriples name l' := by
  cases hl : ofTriples name l with
  | error error => exact (ofTriples_eq_error_iff.mpr ((ofTriples_eq_error_iff.mp hl).congr h)).symm
  | ok g =>
    obtain ⟨g', hg'⟩ : ∃ g', ofTriples name l' = .ok g' :=
      exists_ofTriples_iff_wellFormed.mpr ((exists_ofTriples_iff_wellFormed.mp ⟨g, hl⟩).congr h)
    obtain ⟨hname, hmem⟩ := mem_elements_of_ofTriples hl
    obtain ⟨hname', hmem'⟩ := mem_elements_of_ofTriples hg'
    have helements : g.elements = g'.elements := by
      refine g.ascending.ext g'.ascending fun t => ?_
      rw [hmem, hmem', h]
    rw [hg', eq_iff.mpr ⟨hname.trans hname'.symm, helements⟩]

end Graph

end GraphHom
