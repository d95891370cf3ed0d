import GraphHom.Proofs.StateSpace.First

/-!
# Walks without a limit

A walk can be carried on by a loop over the offers that are still to be visited, its frontier: the loop
takes the first of them, and puts the successors of a state it has entered in front of the others. Such
a loop (`Walk.Loop`) knows no depth. It ends if and only if some depth is enough for visiting its
frontier, and then in the same walk (`Walk.loop_iff`).

So the limit on the depth takes nothing from what explorers answer: with a depth that is enough they
answer what the loop answers, and there is one whenever the loop ends (`Explorer.allResults_iff_loop`,
`Explorer.firstResult_iff_loop`).
-/

namespace GraphHom

variable {σ χ κ ω : Type} [BEq κ] [Hashable κ]

namespace Walk

variable {space : StateSpace σ χ κ ω} {firstOnly : Bool} {depth : Nat}
variable {w w' w'' w₁ : Walk κ ω} {offer : Offer σ χ} {l frontier : List (Offer σ χ)}

/-- The loop over a frontier, started with the first walk, ends with the last. -/
inductive Loop (space : StateSpace σ χ κ ω) (firstOnly : Bool) :
    Walk κ ω → List (Offer σ χ) → Walk κ ω → Prop
  /-- The loop is broken off once the walk is over. -/
  | stop {w : Walk κ ω} {frontier : List (Offer σ χ)} (h : w.isOver firstOnly = true) :
      Loop space firstOnly w frontier w
  /-- The loop ends when nothing is left to be visited. -/
  | empty {w : Walk κ ω} : Loop space firstOnly w [] w
  /-- An offer with a key that has been met is dropped. -/
  | skip {w w' : Walk κ ω} {offer : Offer σ χ} {frontier : List (Offer σ χ)}
      (hover : w.isOver firstOnly = false)
      (hskip : w.explorer.skips (space.key offer.state) = true)
      (h : Loop space firstOnly w frontier w') : Loop space firstOnly w (offer :: frontier) w'
  /-- A done state yields its result. -/
  | done {w w' : Walk κ ω} {offer : Offer σ χ} {frontier : List (Offer σ χ)}
      (henters : Enters space firstOnly w offer) (hdone : space.isDone offer.state = true)
      (h : Loop space firstOnly
        ⟨w.explorer.enter (space.key offer.state), space.result offer.state :: w.found⟩ frontier w') :
      Loop space firstOnly w (offer :: frontier) w'
  /-- The successors of any other state are put in front of the frontier. -/
  | expand {w w' : Walk κ ω} {offer : Offer σ χ} {frontier : List (Offer σ χ)}
      (henters : Enters space firstOnly w offer) (hdone : ¬space.isDone offer.state = true)
      (h : Loop space firstOnly (w.entering space offer) (space.successors offer ++ frontier) w') :
      Loop space firstOnly w (offer :: frontier) w'

/-! ## From visits to the loop -/

theorem Loop.eq_of_isOver (h : Loop space firstOnly w frontier w')
    (hover : w.isOver firstOnly = true) : w' = w := by
  cases h with
  | stop | empty => rfl
  | skip hover' =>
    rw [hover] at hover'
    cases hover'
  | done henters | expand henters =>
    have hover' := henters.1
    rw [hover] at hover'
    cases hover'

theorem Loop.of_foldlM
    (hvisit : ∀ w w₁ offer frontier, visit space firstOnly depth w offer = some w₁ →
      Loop space firstOnly w₁ frontier w' → Loop space firstOnly w (offer :: frontier) w')
    (hfold : l.foldlM (visit space firstOnly depth) w = some w₁)
    (h : Loop space firstOnly w₁ frontier w') : Loop space firstOnly w (l ++ frontier) w' := by
  induction l generalizing w with
  | nil =>
    cases hfold
    exact h
  | cons offer l ih =>
    rw [foldlM_visit_cons] at hfold
    obtain ⟨w₂, h₂, hrest⟩ := Option.bind_eq_some_iff.mp hfold
    exact hvisit w w₂ offer (l ++ frontier) h₂ (ih hrest)

/-- A visit does what the loop does until the rest of the frontier is left. -/
theorem Loop.of_visit (hvisit : visit space firstOnly depth w offer = some w₁)
    (h : Loop space firstOnly w₁ frontier w') : Loop space firstOnly w (offer :: frontier) w' := by
  induction depth generalizing w w₁ offer frontier with
  | zero =>
    rcases visit_cases hvisit with ⟨rfl, -⟩ | ⟨-, below, hbelow, -⟩
    · by_cases hover : w₁.isOver firstOnly = true
      · rw [h.eq_of_isOver hover]
        exact .stop hover
      · rw [visit, if_neg hover] at hvisit
        cases hvisit
    · cases hbelow
  | succ depth ih =>
    rcases visit_cases hvisit with
      ⟨rfl, hsame⟩ | ⟨henters, below, hbelow, ⟨hdone, rfl⟩ | ⟨hdone, hfold⟩⟩
    · by_cases hover : w₁.isOver firstOnly = true
      · rw [h.eq_of_isOver hover]
        exact .stop hover
      · exact .skip (Bool.eq_false_iff.mpr hover) (hsame.resolve_left hover) h
    · exact .done henters hdone h
    · cases hbelow
      exact .expand henters hdone (Loop.of_foldlM (fun _ _ _ _ hv hl => ih hv hl) hfold h)

/-! ## From the loop to visits -/

/-- A loop that ends has only gone down to some depth. -/
theorem Loop.exists_foldlM (h : Loop space firstOnly w frontier w') :
    ∃ depth, frontier.foldlM (visit space firstOnly depth) w = some w' := by
  induction h with
  | stop hover => exact ⟨0, foldlM_visit_of_isOver hover⟩
  | empty => exact ⟨0, rfl⟩
  | @skip w w' offer frontier hover hskip _ ih =>
    obtain ⟨depth, hdepth⟩ := ih
    refine ⟨depth + 1, ?_⟩
    rw [foldlM_visit_cons, visit_of_skips hskip, Option.bind_some]
    exact foldlM_visit_of_le hdepth (Nat.le_succ depth)
  | @done w w' offer frontier henters hdone _ ih =>
    obtain ⟨depth, hdepth⟩ := ih
    refine ⟨depth + 1, ?_⟩
    rw [foldlM_visit_cons, visit_of_isDone henters hdone, Option.bind_some]
    exact foldlM_visit_of_le hdepth (Nat.le_succ depth)
  | @expand w w' offer frontier henters hdone _ ih =>
    obtain ⟨depth, hdepth⟩ := ih
    rw [List.foldlM_append] at hdepth
    obtain ⟨w₁, hbelow, hrest⟩ := Option.bind_eq_some_iff.mp hdepth
    refine ⟨depth + 1, ?_⟩
    rw [foldlM_visit_cons, visit_of_not_isDone henters hdone, hbelow, Option.bind_some]
    exact foldlM_visit_of_le hrest (Nat.le_succ depth)

/-- **The loop ends where visits end.** -/
theorem loop_iff : Loop space firstOnly w frontier w' ↔
    ∃ depth, frontier.foldlM (visit space firstOnly depth) w = some w' := by
  refine ⟨Loop.exists_foldlM, fun ⟨depth, hdepth⟩ => ?_⟩
  have hempty : Loop space firstOnly w' [] w' := .empty
  have h := Loop.of_foldlM (fun _ _ _ _ => Loop.of_visit) hdepth hempty
  rwa [List.append_nil] at h

theorem loop_singleton_iff : Loop space firstOnly w [offer] w' ↔
    ∃ depth, visit space firstOnly depth w offer = some w' := by
  rw [loop_iff]
  refine exists_congr fun depth => ?_
  rw [foldlM_visit_cons]
  cases visit space firstOnly depth w offer with
  | none => exact Iff.rfl
  | some w₁ => exact Iff.rfl

/-- A loop ends in one way only. -/
theorem Loop.unique (h : Loop space firstOnly w frontier w')
    (h' : Loop space firstOnly w frontier w'') : w' = w'' := by
  obtain ⟨depth, hdepth⟩ := h.exists_foldlM
  obtain ⟨depth', hdepth'⟩ := h'.exists_foldlM
  have hmax := foldlM_visit_of_le hdepth (Nat.le_max_left depth depth')
  have hmax' := foldlM_visit_of_le hdepth' (Nat.le_max_right depth depth')
  exact Option.some.inj (hmax.symm.trans hmax')

end Walk

namespace Explorer

variable {space : StateSpace σ χ κ ω} {start : Offer σ χ} {e e' : Explorer κ} {r : Option ω}

/-- Some depth is enough for listing all results exactly if the loop ends, and what is listed is what the
loop has found. -/
theorem allResults_iff_loop [BEq ω] [Hashable ω] {rs : List ω} :
    (∃ depth, e.allResults space depth start = some (rs, e')) ↔
      ∃ w, Walk.Loop space false ⟨e, []⟩ [start] w ∧
        rs = distinct w.found.reverse ∧ e' = w.explorer := by
  simp only [Walk.loop_singleton_iff, allResults, Option.map_eq_some_iff, Prod.mk.injEq]
  constructor
  · rintro ⟨depth, w, hw, rfl, rfl⟩
    exact ⟨w, ⟨depth, hw⟩, rfl, rfl⟩
  · rintro ⟨w, ⟨depth, hw⟩, rfl, rfl⟩
    exact ⟨depth, w, hw, rfl, rfl⟩

/-- Some depth is enough for the first result exactly if the loop ends, and the answer is the result on
which the loop was broken off. -/
theorem firstResult_iff_loop :
    (∃ depth, e.firstResult space depth start = some (r, e')) ↔
      ∃ w, Walk.Loop space true ⟨e, []⟩ [start] w ∧ r = w.found.head? ∧ e' = w.explorer := by
  simp only [Walk.loop_singleton_iff, firstResult, Option.map_eq_some_iff, Prod.mk.injEq]
  constructor
  · rintro ⟨depth, w, hw, rfl, rfl⟩
    exact ⟨w, ⟨depth, hw⟩, rfl, rfl⟩
  · rintro ⟨w, ⟨depth, hw⟩, rfl, rfl⟩
    exact ⟨depth, w, hw, rfl, rfl⟩

end Explorer

end GraphHom
