import GraphHom.Proofs.Matching.Candidates
import GraphHom.Proofs.Morphism.Acceptance

/-!
# The order of pairs

A morphism is made of a list of pairs, and pairs often come from a table that keeps no order. What is made
depends on the pairs alone: lists with the same members build up one map, each in its own order of
insertion, and every fault but one is looked for in that map (`Morphism.ofPairs_congr`). The exception is a
label with two images. It is noticed on the way, so the order decides which of several such labels is
reported, though not that one of them is (`Morphism.exists_conflict_of_not_isFunction`).

An assignment has one value for each variable. If no label belongs to both a node variable and an edge
variable, its label pairs give no label two images (`isFunction_labelPairs`), so that its order makes no
difference at all to what is reconstructed from it (`Morphism.ofPairs_reconstruct_order_irrel`).
-/

namespace GraphHom

variable {name : Name} {domain codomain : Graph} {pairs pairs' : List (Name × Name)} {x : Name}

/-- The label `x` is listed with two different images. -/
def Conflicts (pairs : List (Name × Name)) (x : Name) : Prop :=
  ∃ y y', y ≠ y' ∧ (x, y) ∈ pairs ∧ (x, y') ∈ pairs

/-! ## Reading pairs as a map -/

namespace LabelMap

variable {m : LabelMap}

/-- A pair is refused only if its label has another image already. -/
theorem exists_ne_of_addPair_eq_error {p : Name × Name} (h : m.addPair p = .error x) :
    ∃ y, m.get? x = some y ∧ y ≠ p.2 ∧ p.1 = x := by
  unfold addPair at h
  split at h
  · cases h
  · rename_i image himage
    split at h
    · cases h
    · rename_i hne
      cases h
      exact ⟨image, himage, hne, rfl⟩

/-- A label that is reported has one image in the map or the list, and another one in the list. -/
theorem exists_ne_of_foldlM_eq_error (h : pairs.foldlM addPair m = .error x) :
    ∃ y y', y ≠ y' ∧ (m.get? x = some y ∨ (x, y) ∈ pairs) ∧ (x, y') ∈ pairs := by
  induction pairs generalizing m with
  | nil => cases h
  | cons p pairs ih =>
    rw [List.foldlM_cons] at h
    cases hp : m.addPair p with
    | ok m₁ =>
      rw [hp] at h
      obtain ⟨y, y', hne, hy, hy'⟩ := ih h
      refine ⟨y, y', hne, ?_, List.mem_cons_of_mem p hy'⟩
      rwa [get?_eq_of_addPair_eq_ok hp, or_assoc, ← List.mem_cons] at hy
    | error z =>
      rw [hp] at h
      cases h
      obtain ⟨y, hy, hne, rfl⟩ := exists_ne_of_addPair_eq_error hp
      exact ⟨y, p.2, hne, .inl hy, List.mem_cons_self⟩

/-- Only a label with two images is reported. -/
theorem conflicts_of_ofPairs_eq_error (h : ofPairs pairs = .error x) : Conflicts pairs x := by
  obtain ⟨y, y', hne, hy, hy'⟩ := exists_ne_of_foldlM_eq_error h
  exact ⟨y, y', hne, by simpa using hy, hy'⟩

/-- **Lists with the same pairs build up the same map**, in whatever order they insert them. -/
theorem ofPairs_congr (hfunction : IsFunction pairs) (hmem : ∀ p, p ∈ pairs ↔ p ∈ pairs') :
    ofPairs pairs = ofPairs pairs' := by
  obtain ⟨m, hm⟩ := exists_ofPairs_iff.mpr hfunction
  have hm' : ofPairs pairs' = .ok m := by
    refine ofPairs_eq_ok_iff.mpr fun x y => ?_
    rw [ofPairs_eq_ok_iff.mp hm, hmem]
  rw [hm, hm']

end LabelMap

theorem IsFunction.congr (h : IsFunction pairs) (hmem : ∀ p, p ∈ pairs ↔ p ∈ pairs') :
    IsFunction pairs' :=
  fun x y y' hy hy' => h x y y' ((hmem _).mpr hy) ((hmem _).mpr hy')

namespace Morphism

/-! ## Making a morphism -/

theorem imageFault_ne_conflictingImages {mapping : LabelMap} {t : Triple} {other : Name} :
    imageFault name codomain mapping t ≠ some (.conflictingImages other x) := by
  unfold imageFault
  split
  · simp
  · split
    · simp
    · split
      · simp
      · split <;> simp

/-- A label map has no conflicting images to be found fault with. -/
theorem fault_ne_conflictingImages {mapping : LabelMap} {other : Name} :
    fault name domain codomain mapping ≠ some (.conflictingImages other x) := by
  unfold fault
  split
  · simp
  · intro h
    obtain ⟨t, -, ht⟩ := List.exists_of_findSome?_eq_some h
    exact imageFault_ne_conflictingImages ht

theorem ofMap_ne_conflictingImages {mapping : LabelMap} {other : Name} :
    ofMap name domain codomain mapping ≠ .error (.conflictingImages other x) := by
  unfold ofMap
  split
  · rename_i error herror
    intro h
    cases h
    exact fault_ne_conflictingImages herror
  · simp

/-- Where no label has two images none is reported. -/
theorem ofPairs_ne_conflictingImages (h : IsFunction pairs) {other : Name} :
    ofPairs name domain codomain pairs ≠ .error (.conflictingImages other x) := by
  obtain ⟨mapping, hpairs⟩ := LabelMap.exists_ofPairs_iff.mpr h
  unfold ofPairs
  rw [hpairs]
  exact ofMap_ne_conflictingImages

/-- **The order of pairs makes no difference**, nor do repetitions, as long as no label has two images. -/
theorem ofPairs_congr (h : IsFunction pairs) (hmem : ∀ p, p ∈ pairs ↔ p ∈ pairs') :
    ofPairs name domain codomain pairs = ofPairs name domain codomain pairs' := by
  unfold ofPairs
  rw [LabelMap.ofPairs_congr h hmem]

/-- Where some label has two images, such a label is reported. -/
theorem exists_conflict_of_not_isFunction (h : ¬IsFunction pairs) :
    ∃ x, Conflicts pairs x ∧
      ofPairs name domain codomain pairs = .error (.conflictingImages name x) := by
  cases hpairs : LabelMap.ofPairs pairs with
  | ok m => exact absurd (LabelMap.exists_ofPairs_iff.mp ⟨m, hpairs⟩) h
  | error x =>
    refine ⟨x, LabelMap.conflicts_of_ofPairs_eq_error hpairs, ?_⟩
    unfold ofPairs
    rw [hpairs]

end Morphism

/-! ## Assignments -/

section Assignments

variable {A A' : Assignment MatchVar Triple}

/-- Every variable has one value, and no label is that of a node variable and of an edge variable. -/
structure IsTable (A : Assignment MatchVar Triple) : Prop where
  /-- A variable is listed once. -/
  nodup : (A.map Prod.fst).Nodup
  /-- Node variables and edge variables have different labels. -/
  apart : ∀ x, MatchVar.node x ∈ A.map Prod.fst → MatchVar.edge x ∉ A.map Prod.fst

/-- The variables of a table are known by their labels. -/
theorem IsTable.eq_of_label (h : IsTable A) {v v' : MatchVar} (hv : v ∈ A.map Prod.fst)
    (hv' : v' ∈ A.map Prod.fst) (hlabel : v.label = v'.label) : v = v' := by
  cases v with
  | node x =>
    cases v' with
    | node x' => exact congrArg MatchVar.node hlabel
    | edge x' =>
      have hx : x = x' := hlabel
      exact absurd hv' (hx ▸ h.apart x hv)
  | edge x =>
    cases v' with
    | node x' =>
      have hx : x = x' := hlabel
      exact absurd hv (hx ▸ h.apart x' hv')
    | edge x' => exact congrArg MatchVar.edge hlabel

theorem isFunction_labelPairs (h : IsTable A) : IsFunction (MatchProblem.labelPairs A) := by
  intro x y y' hy hy'
  obtain ⟨v, u, hu, rfl, rfl⟩ := MatchProblem.mem_labelPairs_iff.mp hy
  obtain ⟨v', u', hu', hlabel, rfl⟩ := MatchProblem.mem_labelPairs_iff.mp hy'
  have hv : v' = v := h.eq_of_label (List.mem_map_of_mem hu') (List.mem_map_of_mem hu) hlabel
  subst hv
  have hentry : (v', u) = (v', u') := List.inj_on_of_nodup_map h.nodup hu hu' rfl
  rw [(Prod.mk.inj hentry).2]

/-- The order of its entries makes no difference to what is reconstructed from a table. -/
theorem reconstruct_perm (h : IsTable A) (hperm : A.Perm A') (names : NameSupply) :
    reconstruct A domain codomain names = reconstruct A' domain codomain names := by
  have hmem : ∀ p, p ∈ MatchProblem.labelPairs A ↔ p ∈ MatchProblem.labelPairs A' :=
    fun p => (hperm.map _).mem_iff
  calc reconstruct A domain codomain names
      = (Morphism.ofPairs names.fresh.1 domain codomain (MatchProblem.labelPairs A), names.fresh.2) := rfl
    _ = (Morphism.ofPairs names.fresh.1 domain codomain (MatchProblem.labelPairs A'),
          names.fresh.2) := by rw [Morphism.ofPairs_congr (isFunction_labelPairs h) hmem]
    _ = reconstruct A' domain codomain names := rfl

theorem reconstruct_ne_conflictingImages (h : IsTable A) {names : NameSupply} {other : Name} :
    (reconstruct A domain codomain names).1 ≠ .error (.conflictingImages other x) :=
  Morphism.ofPairs_ne_conflictingImages (isFunction_labelPairs h)

end Assignments

/-- **Neither order nor repetition of pairs matters.** Lists with the same pairs make the same morphism or
fail for the same reason, with one exception: where labels have two images, each list fails with such a
label, though it need not be the same one. A table of values has no such labels, so that what is
reconstructed from it does not depend on the order in which it is gone through. -/
theorem Morphism.ofPairs_reconstruct_order_irrel (name : Name) (domain codomain : Graph) :
    (∀ pairs pairs' : List (Name × Name), (∀ p, p ∈ pairs ↔ p ∈ pairs') →
      (IsFunction pairs →
        ofPairs name domain codomain pairs = ofPairs name domain codomain pairs' ∧
        ∀ other x, ofPairs name domain codomain pairs ≠ .error (.conflictingImages other x)) ∧
      (¬IsFunction pairs →
        (∃ x, Conflicts pairs x ∧
          ofPairs name domain codomain pairs = .error (.conflictingImages name x)) ∧
        ∃ x, Conflicts pairs' x ∧
          ofPairs name domain codomain pairs' = .error (.conflictingImages name x))) ∧
    ∀ (A A' : Assignment MatchVar Triple) (names : NameSupply), IsTable A → A.Perm A' →
      reconstruct A domain codomain names = reconstruct A' domain codomain names ∧
      ∀ other x, (reconstruct A domain codomain names).1 ≠ .error (.conflictingImages other x) := by
  refine ⟨fun pairs pairs' hmem => ⟨fun hfunction => ⟨?_, fun other x => ?_⟩, fun hconflict => ⟨?_, ?_⟩⟩,
    fun A A' names htable hperm => ⟨?_, fun other x => ?_⟩⟩
  · exact ofPairs_congr hfunction hmem
  · exact ofPairs_ne_conflictingImages hfunction
  · exact exists_conflict_of_not_isFunction hconflict
  · exact exists_conflict_of_not_isFunction fun h => hconflict (h.congr fun p => (hmem p).symm)
  · exact reconstruct_perm htable hperm names
  · exact reconstruct_ne_conflictingImages htable

/-- Of two labels with two images each, the one listed first is reported. -/
theorem Morphism.ofPairs_reconstruct_order_irrel_two_conflicts :
    ∃ domain codomain pairs pairs' A A',
      Graph.ofEntries ⟨"A"⟩ [.edge ⟨⟨"x"⟩, ⟨"e"⟩, ⟨"y"⟩⟩] = .ok domain ∧
      Graph.ofEntries ⟨"B"⟩ [.edge ⟨⟨"a"⟩, ⟨"1"⟩, ⟨"b"⟩⟩] = .ok codomain ∧
      pairs = [(⟨"x"⟩, ⟨"a"⟩), (⟨"x"⟩, ⟨"b"⟩), (⟨"y"⟩, ⟨"a"⟩), (⟨"y"⟩, ⟨"b"⟩)] ∧
      pairs' = pairs.reverse ∧
      (∀ p, p ∈ pairs ↔ p ∈ pairs') ∧ ¬IsFunction pairs ∧
      ofPairs ⟨"m"⟩ domain codomain pairs = .error (.conflictingImages ⟨"m"⟩ ⟨"x"⟩) ∧
      ofPairs ⟨"m"⟩ domain codomain pairs' = .error (.conflictingImages ⟨"m"⟩ ⟨"y"⟩) ∧
      (∃ x, Conflicts pairs' x ∧
        ofPairs ⟨"m"⟩ domain codomain pairs' = .error (.conflictingImages ⟨"m"⟩ x)) ∧
      A = [(.node ⟨"x"⟩, .node ⟨"a"⟩), (.node ⟨"y"⟩, .node ⟨"b"⟩),
        (.edge ⟨"e"⟩, ⟨⟨"a"⟩, ⟨"1"⟩, ⟨"b"⟩⟩)] ∧
      A' = A.reverse ∧ IsTable A ∧
      ∃ m, reconstruct A domain codomain (.new "match") = (.ok m, ⟨"match", 1⟩) ∧
        reconstruct A' domain codomain (.new "match") = (.ok m, ⟨"match", 1⟩) := by
  have htable : IsTable [(.node ⟨"x"⟩, .node ⟨"a"⟩), (.node ⟨"y"⟩, .node ⟨"b"⟩),
      (.edge ⟨"e"⟩, ⟨⟨"a"⟩, ⟨"1"⟩, ⟨"b"⟩⟩)] := by
    refine ⟨by decide, fun x hnode hedge => ?_⟩
    simp only [List.map_cons, List.map_nil, List.mem_cons, MatchVar.edge.injEq, MatchVar.node.injEq,
      reduceCtorEq, List.not_mem_nil, or_false, false_or] at hnode hedge
    subst hedge
    exact absurd hnode (by decide)
  refine ⟨_, _, _, _, _, _, rfl, rfl, rfl, rfl, ?members, ?conflict, rfl, rfl,
    (((ofPairs_reconstruct_order_irrel ⟨"m"⟩ _ _).1 _ _ ?members).2 ?conflict).2, rfl, rfl, htable, _,
    rfl, ?_⟩
  case members => exact fun p => List.mem_reverse.symm
  case conflict => exact fun h => absurd (h ⟨"x"⟩ ⟨"a"⟩ ⟨"b"⟩ (by simp) (by simp)) (by decide)
  · rw [← ((ofPairs_reconstruct_order_irrel ⟨"m"⟩ _ _).2 _ _ _ htable (List.reverse_perm _).symm).1]
    rfl

end GraphHom
