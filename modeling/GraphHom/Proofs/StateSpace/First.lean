import GraphHom.Proofs.StateSpace.Walk

/-!
# The first result

A walk that ends with its first result goes the way of one that does not, as far as it goes. So
`Explorer.firstResult` answers the first of what `Explorer.allResults` lists, and leaves the explorer
as `allResults` does if there is nothing to be found (`Explorer.firstResult_of_allResults`).

Two facts about single visits carry this: what one visit can do (`Walk.visit_cases`), and that going
on for longer only adds to a walk (`Walk.visit_related`). They do not ask anything of the space.
-/

namespace GraphHom

variable {σ χ κ ω : Type} [BEq κ] [Hashable κ]

namespace Walk

variable {space : StateSpace σ χ κ ω} {firstOnly : Bool} {depth depth' : Nat}
variable {w w' w₁ : Walk κ ω} {offer : Offer σ χ} {l : List (Offer σ χ)}

/-! ## What one visit does -/

theorem visit_of_isOver (h : w.isOver firstOnly = true) :
    visit space firstOnly depth w offer = some w := by
  cases depth with
  | zero => rw [visit, if_pos h]
  | succ depth => rw [visit, if_pos (by rw [h, Bool.true_or])]

theorem visit_of_skips (h : w.explorer.skips (space.key offer.state) = true) :
    visit space firstOnly (depth + 1) w offer = some w := by
  rw [visit, if_pos (by rw [h, Bool.or_true])]

/-- The walk goes into the offer: it is not over, and the state has to be entered. -/
def Enters (space : StateSpace σ χ κ ω) (firstOnly : Bool) (w : Walk κ ω) (offer : Offer σ χ) :
    Prop :=
  w.isOver firstOnly = false ∧ w.explorer.skips (space.key offer.state) = false

/-- The walk just after it has entered the offer. -/
def entering (space : StateSpace σ χ κ ω) (w : Walk κ ω) (offer : Offer σ χ) : Walk κ ω :=
  ⟨w.explorer.enter (space.key offer.state), w.found⟩

theorem visit_of_isDone (h : Enters space firstOnly w offer)
    (hdone : space.isDone offer.state = true) :
    visit space firstOnly (depth + 1) w offer =
      some ⟨w.explorer.enter (space.key offer.state), space.result offer.state :: w.found⟩ := by
  rw [visit, if_neg (by rw [h.1, h.2]; decide)]
  exact if_pos hdone

theorem visit_of_not_isDone (h : Enters space firstOnly w offer)
    (hdone : ¬space.isDone offer.state = true) :
    visit space firstOnly (depth + 1) w offer =
      (space.successors offer).foldlM (visit space firstOnly depth) (w.entering space offer) := by
  rw [visit, if_neg (by rw [h.1, h.2]; decide)]
  exact if_neg hdone

/-- **What one visit can do.** It leaves the walk as it is, because the walk is over or the offer is
skipped; or it enters the offer, and finds its result or goes through its successors. -/
theorem visit_cases (h : visit space firstOnly depth w offer = some w') :
    (w' = w ∧ (w.isOver firstOnly = true ∨
      w.explorer.skips (space.key offer.state) = true)) ∨
    (Enters space firstOnly w offer ∧ ∃ below, depth = below + 1 ∧
      ((space.isDone offer.state = true ∧
          w' = ⟨w.explorer.enter (space.key offer.state), space.result offer.state :: w.found⟩) ∨
        (¬space.isDone offer.state = true ∧
          (space.successors offer).foldlM (visit space firstOnly below)
            (w.entering space offer) = some w'))) := by
  by_cases hover : w.isOver firstOnly = true
  · rw [visit_of_isOver hover] at h
    exact .inl ⟨(Option.some.inj h).symm, .inl hover⟩
  · cases depth with
    | zero =>
      rw [visit, if_neg hover] at h
      cases h
    | succ below =>
      by_cases hskip : w.explorer.skips (space.key offer.state) = true
      · rw [visit_of_skips hskip] at h
        exact .inl ⟨(Option.some.inj h).symm, .inr hskip⟩
      · have henters : Enters space firstOnly w offer :=
          ⟨Bool.eq_false_iff.mpr hover, Bool.eq_false_iff.mpr hskip⟩
        refine .inr ⟨henters, below, rfl, ?_⟩
        by_cases hdone : space.isDone offer.state = true
        · rw [visit_of_isDone henters hdone] at h
          exact .inl ⟨hdone, (Option.some.inj h).symm⟩
        · rw [visit_of_not_isDone henters hdone] at h
          exact .inr ⟨hdone, h⟩

theorem foldlM_visit_cons :
    (offer :: l).foldlM (visit space firstOnly depth) w =
      (visit space firstOnly depth w offer).bind fun w₁ =>
        l.foldlM (visit space firstOnly depth) w₁ :=
  List.foldlM_cons

theorem foldlM_visit_of_isOver (h : w.isOver firstOnly = true) :
    l.foldlM (visit space firstOnly depth) w = some w := by
  induction l with
  | nil => rfl
  | cons offer l ih => rw [foldlM_visit_cons, visit_of_isOver h, Option.bind_some, ih]

/-! ## What visits add up to -/

/-- A relation that holds when a state is entered, and when it is entered and its result found, holds
of a whole list of visits if it holds of each of them. -/
theorem foldlM_visit_related {R : Walk κ ω → Walk κ ω → Prop} (hrefl : ∀ w, R w w)
    (htrans : ∀ w w' w'', R w w' → R w' w'' → R w w'')
    (hvisit : ∀ w w' offer, visit space firstOnly depth w offer = some w' → R w w')
    (h : l.foldlM (visit space firstOnly depth) w = some w') : R w w' := by
  induction l generalizing w with
  | nil => exact Option.some.inj h ▸ hrefl w
  | cons offer l ih =>
    rw [foldlM_visit_cons] at h
    obtain ⟨w₁, h₁, h₂⟩ := Option.bind_eq_some_iff.mp h
    exact htrans w w₁ w' (hvisit w w₁ offer h₁) (ih h₂)

/-- What entering a state and finding its result keep, a whole visit keeps. -/
theorem visit_related {R : Walk κ ω → Walk κ ω → Prop} (hrefl : ∀ w, R w w)
    (htrans : ∀ w w' w'', R w w' → R w' w'' → R w w'')
    (henter : ∀ w key, R w ⟨w.explorer.enter key, w.found⟩)
    (hfind : ∀ w key result, R w ⟨w.explorer.enter key, result :: w.found⟩)
    (h : visit space firstOnly depth w offer = some w') : R w w' := by
  induction depth generalizing w w' offer with
  | zero =>
    rcases visit_cases h with ⟨rfl, -⟩ | ⟨-, below, hbelow, -⟩
    · exact hrefl w'
    · cases hbelow
  | succ depth ih =>
    rcases visit_cases h with ⟨rfl, -⟩ | ⟨-, below, hbelow, ⟨-, rfl⟩ | ⟨-, hfold⟩⟩
    · exact hrefl w'
    · exact hfind w _ _
    · cases hbelow
      exact htrans w _ w' (henter w _) (foldlM_visit_related hrefl htrans (fun _ _ _ => ih) hfold)

/-- Results are only ever put in front. -/
theorem found_suffix (h : visit space firstOnly depth w offer = some w') : w.found <:+ w'.found :=
  visit_related (R := fun w w' => w.found <:+ w'.found) (fun _ => List.suffix_rfl)
    (fun _ _ _ => List.IsSuffix.trans) (fun _ _ => List.suffix_rfl)
    (fun _ _ result => List.suffix_cons result _) h

theorem found_suffix_foldlM (h : l.foldlM (visit space firstOnly depth) w = some w') :
    w.found <:+ w'.found :=
  foldlM_visit_related (R := fun w w' => w.found <:+ w'.found) (fun _ => List.suffix_rfl)
    (fun _ _ _ => List.IsSuffix.trans) (fun _ _ _ => found_suffix) h

theorem entered_le (h : visit space firstOnly depth w offer = some w') :
    w.explorer.entered ≤ w'.explorer.entered :=
  visit_related (R := fun w w' => w.explorer.entered ≤ w'.explorer.entered) (fun _ => Nat.le_refl _)
    (fun _ _ _ => Nat.le_trans) (fun w _ => Nat.le_succ w.explorer.entered)
    (fun w _ _ => Nat.le_succ w.explorer.entered) h

theorem remembers_eq (h : visit space firstOnly depth w offer = some w') :
    w'.explorer.remembers = w.explorer.remembers :=
  visit_related (R := fun w w' => w'.explorer.remembers = w.explorer.remembers) (fun _ => rfl)
    (fun _ _ _ h h' => h'.trans h) (fun _ _ => rfl) (fun _ _ _ => rfl) h

/-! ## Depth does not matter -/

theorem foldlM_visit_mono
    (hvisit : ∀ w w' offer, visit space firstOnly depth w offer = some w' →
      visit space firstOnly depth' w offer = some w')
    (h : l.foldlM (visit space firstOnly depth) w = some w') :
    l.foldlM (visit space firstOnly depth') w = some w' := by
  induction l generalizing w with
  | nil => exact h
  | cons offer l ih =>
    rw [foldlM_visit_cons] at h ⊢
    obtain ⟨w₁, h₁, h₂⟩ := Option.bind_eq_some_iff.mp h
    rw [hvisit w w₁ offer h₁]
    exact ih h₂

/-- A walk that gets by with one depth goes the same way with any greater one. -/
theorem visit_mono (h : visit space firstOnly depth w offer = some w') (hle : depth ≤ depth') :
    visit space firstOnly depth' w offer = some w' := by
  induction depth generalizing depth' w w' offer with
  | zero =>
    rcases visit_cases h with ⟨rfl, hover | hskip⟩ | ⟨-, below, hbelow, -⟩
    · exact visit_of_isOver hover
    · by_cases hover : w'.isOver firstOnly = true
      · exact visit_of_isOver hover
      · rw [visit, if_neg hover] at h
        cases h
    · cases hbelow
  | succ depth ih =>
    obtain ⟨deeper, rfl⟩ : ∃ deeper, depth' = deeper + 1 := ⟨depth' - 1, by omega⟩
    rcases visit_cases h with
      ⟨rfl, hover | hskip⟩ | ⟨henters, below, hbelow, ⟨hdone, rfl⟩ | ⟨hdone, hfold⟩⟩
    · exact visit_of_isOver hover
    · exact visit_of_skips hskip
    · exact visit_of_isDone henters hdone
    · cases hbelow
      rw [visit_of_not_isDone henters hdone]
      exact foldlM_visit_mono (fun _ _ _ h => ih h (Nat.le_of_succ_le_succ hle)) hfold

theorem foldlM_visit_of_le (h : l.foldlM (visit space firstOnly depth) w = some w')
    (hle : depth ≤ depth') : l.foldlM (visit space firstOnly depth') w = some w' :=
  foldlM_visit_mono (fun _ _ _ hvisit => visit_mono hvisit hle) h

/-! ## Stopping early -/

/-- A walk `w'` that stopped at its first result, compared with a walk `w` that went on: it has the
result that `w` found first, and is `w` itself if there is none. -/
structure StopsShort (w' w : Walk κ ω) : Prop where
  /-- The result is the first one. -/
  head?_eq : w'.found.head? = w.found.getLast?
  /-- Without a result there was no reason to stop. -/
  eq_of_nil : w.found = [] → w' = w

theorem StopsShort.found_eq_nil_iff (h : StopsShort w' w) : w'.found = [] ↔ w.found = [] := by
  rw [← List.head?_eq_none_iff, h.head?_eq, List.getLast?_eq_none_iff]

theorem isOver_true_eq_false_iff : w.isOver true = false ↔ w.found = [] := by
  simp [isOver]

theorem isOver_true_of_ne_nil (h : w.found ≠ []) : w.isOver true = true := by
  simpa [isOver] using h

/-- Having stopped in the middle of a list, a walk has no less than one that goes through the rest. -/
theorem StopsShort.of_foldlM (h : StopsShort w₁ w) (hne : w.found ≠ [])
    (hfold : l.foldlM (visit space false depth) w = some w') : StopsShort w₁ w' := by
  obtain ⟨new, hnew⟩ := found_suffix_foldlM hfold
  have hne' : w'.found ≠ [] := by
    rw [← hnew]
    exact List.append_ne_nil_of_right_ne_nil new hne
  refine ⟨?_, fun hnil => absurd hnil hne'⟩
  rw [h.head?_eq, ← hnew, List.getLast?_append_of_ne_nil new hne]

theorem exists_foldlM_stopsShort
    (hvisit : ∀ w w' offer, w.found = [] → visit space false depth w offer = some w' →
      ∃ w'', visit space true depth w offer = some w'' ∧ StopsShort w'' w')
    (hnil : w.found = []) (h : l.foldlM (visit space false depth) w = some w') :
    ∃ w'', l.foldlM (visit space true depth) w = some w'' ∧ StopsShort w'' w' := by
  induction l generalizing w with
  | nil =>
    cases h
    exact ⟨w', rfl, by rw [hnil]; rfl, fun _ => rfl⟩
  | cons offer l ih =>
    rw [foldlM_visit_cons] at h
    obtain ⟨w₁, h₁, h₂⟩ := Option.bind_eq_some_iff.mp h
    obtain ⟨w₂, hw₂, hstop⟩ := hvisit w w₁ offer hnil h₁
    rw [foldlM_visit_cons, hw₂, Option.bind_some]
    by_cases hnil₁ : w₁.found = []
    · -- nothing found yet: both go on from one walk
      rw [hstop.eq_of_nil hnil₁]
      exact ih hnil₁ h₂
    · have hover : w₂.isOver true = true :=
        isOver_true_of_ne_nil fun hnil₂ => hnil₁ (hstop.found_eq_nil_iff.mp hnil₂)
      exact ⟨w₂, foldlM_visit_of_isOver hover, hstop.of_foldlM hnil₁ h₂⟩

/-- **Stopping early loses nothing but what comes later.** -/
theorem exists_visit_stopsShort (hnil : w.found = [])
    (h : visit space false depth w offer = some w') :
    ∃ w'', visit space true depth w offer = some w'' ∧ StopsShort w'' w' := by
  induction depth generalizing w w' offer with
  | zero => cases h
  | succ depth ih =>
    rcases visit_cases h with ⟨rfl, hover | hskip⟩ | ⟨henters, below, hbelow, hrest⟩
    · cases hover
    · exact ⟨w', visit_of_skips hskip, by rw [hnil]; rfl, fun _ => rfl⟩
    · cases hbelow
      have henters' : Enters space true w offer := ⟨isOver_true_eq_false_iff.mpr hnil, henters.2⟩
      rcases hrest with ⟨hdone, rfl⟩ | ⟨hdone, hfold⟩
      · refine ⟨_, visit_of_isDone henters' hdone, ?_, fun h => absurd h (List.cons_ne_nil _ _)⟩
        rw [hnil]
        rfl
      · rw [visit_of_not_isDone henters' hdone]
        exact exists_foldlM_stopsShort (fun _ _ _ => ih) hnil hfold

end Walk

namespace Explorer

variable {space : StateSpace σ χ κ ω} {depth depth' : Nat} {start : Offer σ χ} {e e' : Explorer κ}
variable {rs : List ω} {r : Option ω}

theorem firstResult_mono (h : e.firstResult space depth start = some (r, e'))
    (hle : depth ≤ depth') : e.firstResult space depth' start = some (r, e') := by
  obtain ⟨w, hw, heq⟩ := Option.map_eq_some_iff.mp h
  rw [firstResult, Walk.visit_mono hw hle, Option.map_some, heq]

variable [BEq ω] [Hashable ω]

theorem allResults_mono (h : e.allResults space depth start = some (rs, e')) (hle : depth ≤ depth') :
    e.allResults space depth' start = some (rs, e') := by
  obtain ⟨w, hw, heq⟩ := Option.map_eq_some_iff.mp h
  rw [allResults, Walk.visit_mono hw hle, Option.map_some, heq]

/-- **The first result is the first of all results.** Where there is none, looking for the first one
and looking for all of them leave the explorer alike. -/
theorem firstResult_of_allResults [LawfulBEq ω] (h : e.allResults space depth start = some (rs, e')) :
    ∃ e'', e.firstResult space depth start = some (rs.head?, e'') ∧ (rs = [] → e'' = e') := by
  obtain ⟨w, hw, heq⟩ := Option.map_eq_some_iff.mp h
  obtain ⟨rfl, rfl⟩ := Prod.mk.inj heq
  obtain ⟨w', hw', hstop⟩ := Walk.exists_visit_stopsShort rfl hw
  refine ⟨w'.explorer, ?_, fun hnil => ?_⟩
  · rw [firstResult, hw', Option.map_some, hstop.head?_eq, head?_distinct, List.head?_reverse]
  · rw [distinct_eq_nil_iff, List.reverse_eq_nil_iff] at hnil
    rw [hstop.eq_of_nil hnil]

end Explorer

end GraphHom
