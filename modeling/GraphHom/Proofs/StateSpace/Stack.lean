import GraphHom.Proofs.StateSpace.Frontier

/-!
# Walks with a stack

A walk needs no recursion: the offers still to be visited can wait on a stack. One turn of the loop
(`Pending.turn`) takes the offer on top. If the walk enters it, and it is not done, its successors are
pushed from the last choice to the first, so that the first choice comes to lie on top and the siblings
of all depths wait below it, the deeper ones higher.

`Pending.run` makes one turn after the other. Read from the top, the stack is the frontier of `Walk.Loop`,
and each turn is one of its rules; so the turns come to an end exactly where the loop does
(`Pending.run_iff_loop`), and what they have found then is what explorers answer
(`Explorer.allResults_iff_run`, `Explorer.firstResult_iff_run`).
-/

namespace GraphHom

variable {σ χ κ ω : Type}

namespace StateSpace

/-! ## Pushing -/

/-- Pushes what the admissible choices of an offer lead to, from the last choice to the first. -/
def push (space : StateSpace σ χ κ ω) (offer : Offer σ χ) (stack : Array (Offer σ χ)) :
    Array (Offer σ χ) :=
  offer.choices.foldr (fun choice stack =>
    if space.canApply offer.state choice then
      let next := space.apply offer.state choice
      stack.push ⟨next.2, next.1⟩
    else stack) stack

/-- Pushed in reverse, the successors lie on top in their own order. -/
theorem push_toArray {space : StateSpace σ χ κ ω} {offer : Offer σ χ} {frontier : List (Offer σ χ)} :
    space.push offer frontier.reverse.toArray =
      (space.successors offer ++ frontier).reverse.toArray := by
  unfold push successors
  induction offer.choices with
  | nil => rfl
  | cons choice choices ih =>
    rw [List.foldr_cons, ih]
    by_cases hadmissible : space.canApply offer.state choice = true
    · rw [if_pos hadmissible, List.filter_cons_of_pos hadmissible]
      simp
    · rw [if_neg hadmissible, List.filter_cons_of_neg hadmissible]

end StateSpace

variable [BEq κ] [Hashable κ]

/-- A walk between two turns of its loop. -/
structure Pending (σ χ κ ω : Type) [BEq κ] [Hashable κ] where
  /-- The walk so far. -/
  walk : Walk κ ω
  /-- The offers still to be visited; the last one is on top. -/
  stack : Array (Offer σ χ)

namespace Pending

/-! ## Turns -/

/-- One turn: the offer on top is taken off and visited. There is no further turn when the walk is over
or the stack is empty. -/
def turn (space : StateSpace σ χ κ ω) (firstOnly : Bool) (s : Pending σ χ κ ω) :
    Option (Pending σ χ κ ω) :=
  if s.walk.isOver firstOnly then none
  else
    match s.stack.back? with
    | none => none
    | some offer =>
      let rest := s.stack.pop
      let key := space.key offer.state
      if s.walk.explorer.skips key then some ⟨s.walk, rest⟩
      else
        let explorer := s.walk.explorer.enter key
        if space.isDone offer.state then
          some ⟨⟨explorer, space.result offer.state :: s.walk.found⟩, rest⟩
        else some ⟨⟨explorer, s.walk.found⟩, space.push offer rest⟩

/-- The walk in which the loop ends, if the given number of looks at the stack is enough for that. -/
def run (space : StateSpace σ χ κ ω) (firstOnly : Bool) :
    Nat → Pending σ χ κ ω → Option (Walk κ ω)
  | 0, _ => none
  | looks + 1, s =>
    match turn space firstOnly s with
    | none => some s.walk
    | some s' => run space firstOnly looks s'

/-! ## Turns on a frontier -/

/-- A walk with the offers of a frontier on its stack, the first one on top. -/
def ofFrontier (w : Walk κ ω) (frontier : List (Offer σ χ)) : Pending σ χ κ ω :=
  ⟨w, frontier.reverse.toArray⟩

variable {space : StateSpace σ χ κ ω} {firstOnly : Bool} {looks : Nat} {s s' : Pending σ χ κ ω}
variable {w w' : Walk κ ω} {offer : Offer σ χ} {frontier : List (Offer σ χ)}

theorem turn_of_isOver (h : s.walk.isOver firstOnly = true) : turn space firstOnly s = none := by
  rw [turn, if_pos h]

theorem turn_nil : turn space firstOnly (ofFrontier w []) = none := by
  unfold turn
  split
  · rfl
  · rfl

theorem turn_cons (space : StateSpace σ χ κ ω) (offer : Offer σ χ) (frontier : List (Offer σ χ))
    (h : w.isOver firstOnly = false) :
    turn space firstOnly (ofFrontier w (offer :: frontier)) =
      if w.explorer.skips (space.key offer.state) then some (ofFrontier w frontier)
      else if space.isDone offer.state then
        some (ofFrontier ⟨w.explorer.enter (space.key offer.state),
          space.result offer.state :: w.found⟩ frontier)
      else some (ofFrontier (w.entering space offer) (space.successors offer ++ frontier)) := by
  have htop : (offer :: frontier).reverse.toArray.back? = some offer := by simp
  have hrest : (offer :: frontier).reverse.toArray.pop = frontier.reverse.toArray := by simp
  have hover : ¬(ofFrontier w (offer :: frontier)).walk.isOver firstOnly = true := by
    show ¬w.isOver firstOnly = true
    rw [h]
    exact Bool.false_ne_true
  unfold turn
  rw [if_neg hover]
  show (match (offer :: frontier).reverse.toArray.back? with | none => none | some offer => _) = _
  rw [htop]
  simp only [ofFrontier, hrest, StateSpace.push_toArray]
  rfl

theorem run_of_turn_eq_none (h : turn space firstOnly s = none) :
    run space firstOnly (looks + 1) s = some s.walk := by
  rw [run, h]

theorem run_of_turn_eq_some (h : turn space firstOnly s = some s') :
    run space firstOnly (looks + 1) s = run space firstOnly looks s' := by
  rw [run, h]

/-! ## Turns are the rules of the loop -/

theorem exists_run_of_loop (h : Walk.Loop space firstOnly w frontier w') :
    ∃ looks, run space firstOnly looks (ofFrontier w frontier) = some w' := by
  induction h with
  | stop hover => exact ⟨1, run_of_turn_eq_none (turn_of_isOver hover)⟩
  | empty => exact ⟨1, run_of_turn_eq_none turn_nil⟩
  | skip hover hskip _ ih =>
    obtain ⟨looks, hlooks⟩ := ih
    refine ⟨looks + 1, ?_⟩
    rw [run_of_turn_eq_some (by rw [turn_cons _ _ _ hover, if_pos hskip]), hlooks]
  | done henters hdone _ ih =>
    obtain ⟨looks, hlooks⟩ := ih
    have hskip := Bool.eq_false_iff.mp henters.2
    refine ⟨looks + 1, ?_⟩
    rw [run_of_turn_eq_some (by rw [turn_cons _ _ _ henters.1, if_neg hskip, if_pos hdone]), hlooks]
  | expand henters hdone _ ih =>
    obtain ⟨looks, hlooks⟩ := ih
    have hskip := Bool.eq_false_iff.mp henters.2
    refine ⟨looks + 1, ?_⟩
    rw [run_of_turn_eq_some (by rw [turn_cons _ _ _ henters.1, if_neg hskip, if_neg hdone]), hlooks]

theorem loop_of_run (h : run space firstOnly looks (ofFrontier w frontier) = some w') :
    Walk.Loop space firstOnly w frontier w' := by
  induction looks generalizing w frontier with
  | zero => cases h
  | succ looks ih =>
    by_cases hover : w.isOver firstOnly = true
    · rw [run_of_turn_eq_none (turn_of_isOver hover)] at h
      cases h
      exact .stop hover
    · have hover : w.isOver firstOnly = false := Bool.eq_false_iff.mpr hover
      cases frontier with
      | nil =>
        rw [run_of_turn_eq_none turn_nil] at h
        cases h
        exact .empty
      | cons offer frontier =>
        have hturn := turn_cons space offer frontier hover
        by_cases hskip : w.explorer.skips (space.key offer.state) = true
        · rw [if_pos hskip] at hturn
          rw [run_of_turn_eq_some hturn] at h
          exact .skip hover hskip (ih h)
        · have henters : Walk.Enters space firstOnly w offer := ⟨hover, Bool.eq_false_iff.mpr hskip⟩
          rw [if_neg hskip] at hturn
          by_cases hdone : space.isDone offer.state = true
          · rw [if_pos hdone] at hturn
            rw [run_of_turn_eq_some hturn] at h
            exact .done henters hdone (ih h)
          · rw [if_neg hdone] at hturn
            rw [run_of_turn_eq_some hturn] at h
            exact .expand henters hdone (ih h)

/-- **The turns come to an end where the loop does**, and in the same walk. -/
theorem run_iff_loop : (∃ looks, run space firstOnly looks (ofFrontier w frontier) = some w') ↔
    Walk.Loop space firstOnly w frontier w' :=
  ⟨fun ⟨_, h⟩ => loop_of_run h, exists_run_of_loop⟩

end Pending

namespace Explorer

variable {space : StateSpace σ χ κ ω} {start : Offer σ χ} {e e' : Explorer κ} {r : Option ω}

/-- The loop of an explorer before its first turn, with nothing but the start on its stack. -/
def pending (e : Explorer κ) (start : Offer σ χ) : Pending σ χ κ ω := ⟨⟨e, []⟩, #[start]⟩

/-- All results are listed, with some depth, exactly if the turns come to an end, and they are what has
been found by then. -/
theorem allResults_iff_run [BEq ω] [Hashable ω] {rs : List ω} :
    (∃ depth, e.allResults space depth start = some (rs, e')) ↔
      ∃ looks w, Pending.run space false looks (e.pending start) = some w ∧
        rs = distinct w.found.reverse ∧ e' = w.explorer := by
  rw [allResults_iff_loop, exists_comm]
  refine exists_congr fun w => ?_
  rw [← Pending.run_iff_loop, exists_and_right]
  exact Iff.rfl

/-- The first result is answered, with some depth, exactly if the turns come to an end, and it is the one
that has broken them off. -/
theorem firstResult_iff_run :
    (∃ depth, e.firstResult space depth start = some (r, e')) ↔
      ∃ looks w, Pending.run space true looks (e.pending start) = some w ∧
        r = w.found.head? ∧ e' = w.explorer := by
  rw [firstResult_iff_loop, exists_comm]
  refine exists_congr fun w => ?_
  rw [← Pending.run_iff_loop, exists_and_right]
  exact Iff.rfl

end Explorer

end GraphHom
