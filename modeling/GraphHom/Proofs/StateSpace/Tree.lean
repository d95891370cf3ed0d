import GraphHom.Proofs.StateSpace.Reach
import GraphHom.Proofs.StateSpace.Stack
import GraphHom.StateSpace.Table

/-!
# Walks through trees

Where every path from an offer ends, the admissible choices span a tree below it: done states are its
leaves, and so are states that admit nothing. `StateSpace.nodes` lists its offers as a recursive walk
meets them, each before what its choices lead to, and the choices from first to last; the results below
the offer are those of the done states among them, in this order (`StateSpace.results_eq_nodes`).

A walk without memory that works with a stack goes through the same list. What is still to come lies on
the stack as the trees below the waiting offers, one after the other, and every turn takes the first
node off (`Pending.exists_turn_of_not_remembers`). So the walk enters every node once, in the order of
the tree (`Pending.run_eq_foldl_nodes`).

What an explorer without memory answers follows from this (`Explorer.exists_results_of_not_remembers`):
nothing is asked of the keys.
-/

namespace GraphHom

variable {σ χ κ ω : Type}

namespace StateSpace

variable {space : StateSpace σ χ κ ω} {offer : Offer σ χ} {l : List (Offer σ χ)} {depth height : Nat}

/-! ## Finite trees -/

/-- Finitely many trees that each have a height have one height in common. -/
theorem exists_endsWithin_forall
    (h : ∀ offer ∈ l, ∃ height, space.EndsWithin height offer) :
    ∃ height, ∀ offer ∈ l, space.EndsWithin height offer := by
  induction l with
  | nil => exact ⟨0, fun _ hmem => by cases hmem⟩
  | cons offer l ih =>
    obtain ⟨height, hoffer⟩ := h offer List.mem_cons_self
    obtain ⟨height', hl⟩ := ih fun o ho => h o (List.mem_cons_of_mem offer ho)
    refine ⟨max height height', fun o ho => ?_⟩
    rcases List.mem_cons.mp ho with rfl | ho
    · exact hoffer.mono (Nat.le_max_left height height')
    · exact (hl o ho).mono (Nat.le_max_right height height')

/-- **The paths from an offer have a greatest length exactly if none goes on forever**, since only
finitely many choices are offered at a time. -/
theorem exists_endsWithin_iff_acc :
    (∃ height, space.EndsWithin height offer) ↔ Acc (fun next o => space.Leads o next) offer := by
  constructor
  · rintro ⟨height, h⟩
    induction height generalizing offer with
    | zero => exact h.elim
    | succ height ih => exact Acc.intro _ fun next hnext => ih (h.of_next hnext.1 next hnext.2)
  · intro h
    induction h with
    | intro offer _ ih =>
      by_cases hdone : space.isDone offer.state = true
      · exact ⟨1, .inl hdone⟩
      · obtain ⟨height, hnext⟩ := exists_endsWithin_forall fun next hmem => ih next ⟨hdone, hmem⟩
        exact ⟨height + 1, .inr hnext⟩

/-! ## Nodes -/

/-- The offers of the tree of admissible choices, down to a given depth: each one before those that its
choices lead to, the choices from first to last. -/
def nodes (space : StateSpace σ χ κ ω) : Nat → Offer σ χ → List (Offer σ χ)
  | 0, _ => []
  | depth + 1, offer =>
    offer :: if space.isDone offer.state then []
      else (space.successors offer).flatMap (space.nodes depth)

theorem nodes_of_isDone (h : space.isDone offer.state = true) :
    space.nodes (depth + 1) offer = [offer] := by
  rw [nodes, if_pos h]

theorem nodes_of_not_isDone (h : ¬space.isDone offer.state = true) :
    space.nodes (depth + 1) offer =
      offer :: (space.successors offer).flatMap (space.nodes depth) := by
  rw [nodes, if_neg h]

/-- The results of the done states among some offers. -/
def resultsAmong (space : StateSpace σ χ κ ω) (l : List (Offer σ χ)) : List ω :=
  (l.filter fun offer => space.isDone offer.state).map fun offer => space.result offer.state

theorem resultsAmong_cons_of_isDone (h : space.isDone offer.state = true) :
    space.resultsAmong (offer :: l) = space.result offer.state :: space.resultsAmong l := by
  simp [resultsAmong, h]

theorem resultsAmong_cons_of_not_isDone (h : ¬space.isDone offer.state = true) :
    space.resultsAmong (offer :: l) = space.resultsAmong l := by
  simp [resultsAmong, h]

/-- The results below an offer are those of the done states in its tree. -/
theorem results_eq_nodes : space.results depth offer = space.resultsAmong (space.nodes depth offer) := by
  induction depth generalizing offer with
  | zero => rfl
  | succ depth ih =>
    by_cases hdone : space.isDone offer.state = true
    · rw [results_of_isDone hdone, nodes_of_isDone hdone, resultsAmong_cons_of_isDone hdone]
      rfl
    · rw [results_of_not_isDone hdone, nodes_of_not_isDone hdone,
        resultsAmong_cons_of_not_isDone hdone, resultsAmong, List.filter_flatMap, List.map_flatMap]
      exact List.flatMap_congr fun next _ => ih

/-- A tree has no nodes further down than its paths go. -/
theorem nodes_of_le (h : space.EndsWithin height offer) (hle : height ≤ depth) :
    space.nodes depth offer = space.nodes height offer := by
  induction height generalizing depth offer with
  | zero => exact h.elim
  | succ height ih =>
    obtain ⟨below, rfl⟩ : ∃ below, depth = below + 1 := ⟨depth - 1, by omega⟩
    by_cases hdone : space.isDone offer.state = true
    · rw [nodes_of_isDone hdone, nodes_of_isDone hdone]
    · rw [nodes_of_not_isDone hdone, nodes_of_not_isDone hdone]
      refine congrArg (offer :: ·) (List.flatMap_congr fun next hmem => ?_)
      exact ih (h.of_next hdone next hmem) (by omega)

/-- The trees below the successors are no higher than the tree they are part of. -/
theorem EndsWithin.of_mem_successors (h : space.EndsWithin height offer)
    (hdone : ¬space.isDone offer.state = true) :
    ∀ next ∈ space.successors offer, space.EndsWithin height next := by
  cases height with
  | zero => exact h.elim
  | succ height => exact fun next hmem => (h.of_next hdone next hmem).mono (Nat.le_succ height)

/-- A tree without its root is the trees below the successors. -/
theorem nodes_eq_cons (h : space.EndsWithin height offer) :
    space.nodes height offer = offer :: if space.isDone offer.state then []
      else (space.successors offer).flatMap (space.nodes height) := by
  cases height with
  | zero => exact h.elim
  | succ height =>
    by_cases hdone : space.isDone offer.state = true
    · rw [nodes_of_isDone hdone, if_pos hdone]
    · rw [nodes_of_not_isDone hdone, if_neg hdone]
      refine congrArg (offer :: ·) (List.flatMap_congr fun next hmem => ?_)
      exact (nodes_of_le (h.of_next hdone next hmem) (Nat.le_succ height)).symm

end StateSpace

variable [BEq κ] [Hashable κ]

namespace Walk

open StateSpace

variable {space : StateSpace σ χ κ ω} {firstOnly : Bool} {depth : Nat}
variable {w w' : Walk κ ω} {offer : Offer σ χ} {l : List (Offer σ χ)}

/-! ## Entering one offer after the other -/

/-- The walk after it has entered an offer, with the result if the state is done. -/
def take (space : StateSpace σ χ κ ω) (w : Walk κ ω) (offer : Offer σ χ) : Walk κ ω :=
  ⟨w.explorer.enter (space.key offer.state),
    if space.isDone offer.state then space.result offer.state :: w.found else w.found⟩

theorem entered_foldl_take :
    (l.foldl (take space) w).explorer.entered = w.explorer.entered + l.length := by
  induction l generalizing w with
  | nil => rfl
  | cons offer l ih =>
    rw [List.foldl_cons, ih, List.length_cons]
    show w.explorer.entered + 1 + l.length = w.explorer.entered + (l.length + 1)
    omega

theorem found_foldl_take :
    (l.foldl (take space) w).found = (space.resultsAmong l).reverse ++ w.found := by
  induction l generalizing w with
  | nil => rfl
  | cons offer l ih =>
    rw [List.foldl_cons, ih]
    by_cases hdone : space.isDone offer.state = true
    · rw [resultsAmong_cons_of_isDone hdone, take, if_pos hdone]
      simp
    · rw [resultsAmong_cons_of_not_isDone hdone, take, if_neg hdone]

/-! ## Depth enough -/

theorem exists_foldlM_visit_of_forall
    (hvisit : ∀ offer ∈ l, ∀ w : Walk κ ω, ∃ w', visit space firstOnly depth w offer = some w') :
    ∃ w', l.foldlM (visit space firstOnly depth) w = some w' := by
  induction l generalizing w with
  | nil => exact ⟨w, rfl⟩
  | cons offer l ih =>
    obtain ⟨w₁, hw₁⟩ := hvisit offer List.mem_cons_self w
    obtain ⟨w₂, hw₂⟩ := ih (w := w₁) fun o ho => hvisit o (List.mem_cons_of_mem offer ho)
    exact ⟨w₂, by rw [foldlM_visit_cons, hw₁, Option.bind_some, hw₂]⟩

/-- A visit comes to an end if it may go as deep as the tree is high. -/
theorem exists_visit_of_endsWithin (h : space.EndsWithin depth offer) (firstOnly : Bool)
    (w : Walk κ ω) :
    ∃ w', visit space firstOnly depth w offer = some w' := by
  induction depth generalizing w offer with
  | zero => exact h.elim
  | succ depth ih =>
    by_cases hover : w.isOver firstOnly = true
    · exact ⟨w, visit_of_isOver hover⟩
    · by_cases hskip : w.explorer.skips (space.key offer.state) = true
      · exact ⟨w, visit_of_skips hskip⟩
      · have henters : Enters space firstOnly w offer :=
          ⟨Bool.eq_false_iff.mpr hover, Bool.eq_false_iff.mpr hskip⟩
        by_cases hdone : space.isDone offer.state = true
        · exact ⟨_, visit_of_isDone henters hdone⟩
        · rw [visit_of_not_isDone henters hdone]
          exact exists_foldlM_visit_of_forall fun next hmem => ih (h.of_next hdone next hmem)

/-- A visit that may go as deep as the tree is high ends in the walk in which the loop ends. -/
theorem Loop.visit_eq (h : Loop space firstOnly w [offer] w') (hends : space.EndsWithin depth offer) :
    visit space firstOnly depth w offer = some w' := by
  obtain ⟨w₁, hw₁⟩ := exists_visit_of_endsWithin hends firstOnly w
  have hloop : Loop space firstOnly w [offer] w₁ := loop_singleton_iff.mpr ⟨depth, hw₁⟩
  rw [hw₁, h.unique hloop]

end Walk

namespace Pending

open StateSpace

variable {space : StateSpace σ χ κ ω} {height : Nat} {w : Walk κ ω} {offer : Offer σ χ}
variable {frontier : List (Offer σ χ)}

/-! ## The nodes on the stack -/

/-- **One turn takes one node.** Without memory, a turn enters the offer on top, and what it leaves on the
stack are the nodes that were there without this one. -/
theorem exists_turn_of_not_remembers (hplain : w.explorer.remembers = false)
    (hends : ∀ o ∈ offer :: frontier, space.EndsWithin height o) :
    ∃ frontier', turn space false (ofFrontier w (offer :: frontier)) =
        some (ofFrontier (w.take space offer) frontier') ∧
      (∀ o ∈ frontier', space.EndsWithin height o) ∧
      (offer :: frontier).flatMap (space.nodes height) =
        offer :: frontier'.flatMap (space.nodes height) := by
  obtain ⟨hoffer, hfrontier⟩ := List.forall_mem_cons.mp hends
  have hskip : ¬w.explorer.skips (space.key offer.state) = true := by
    rw [Explorer.skips, hplain, Bool.false_and]
    exact Bool.false_ne_true
  have hover : w.isOver false = false := rfl
  have hturn := turn_cons space offer frontier hover
  rw [if_neg hskip] at hturn
  rw [List.flatMap_cons, nodes_eq_cons hoffer]
  by_cases hdone : space.isDone offer.state = true
  · refine ⟨frontier, ?_, hfrontier, ?_⟩
    · rw [hturn, if_pos hdone, Walk.take, if_pos hdone]
    · rw [if_pos hdone]
      rfl
  · refine ⟨space.successors offer ++ frontier, ?_, ?_, ?_⟩
    · rw [hturn, if_neg hdone, Walk.take, if_neg hdone]
      rfl
    · intro o ho
      rcases List.mem_append.mp ho with ho | ho
      · exact hoffer.of_mem_successors hdone o ho
      · exact hfrontier o ho
    · rw [if_neg hdone, List.flatMap_append]
      rfl

/-- **A walk without memory goes through the nodes on its stack**, one in every turn, from the top of the
stack to the bottom, and through each tree in its own order. -/
theorem run_eq_foldl_nodes (hplain : w.explorer.remembers = false)
    (hends : ∀ o ∈ frontier, space.EndsWithin height o) :
    run space false ((frontier.flatMap (space.nodes height)).length + 1) (ofFrontier w frontier) =
      some ((frontier.flatMap (space.nodes height)).foldl (Walk.take space) w) := by
  -- induction on what is left on the stack, whatever offers it comes from
  generalize hleft : frontier.flatMap (space.nodes height) = left
  induction left generalizing w frontier with
  | nil =>
    cases frontier with
    | nil => exact run_of_turn_eq_none turn_nil
    | cons offer frontier =>
      rw [List.flatMap_cons, nodes_eq_cons (hends offer List.mem_cons_self)] at hleft
      cases hleft
  | cons node left ih =>
    cases frontier with
    | nil => cases hleft
    | cons offer frontier =>
      obtain ⟨frontier', hturn, hends', hnodes⟩ := exists_turn_of_not_remembers hplain hends
      obtain ⟨rfl, hleft'⟩ := List.cons.inj (hnodes.symm.trans hleft)
      have hplain' : (w.take space offer).explorer.remembers = false := hplain
      rw [List.length_cons, run_of_turn_eq_some hturn, ih hplain' hends' hleft', List.foldl_cons]

end Pending

namespace Explorer

variable [BEq ω] [Hashable ω] [LawfulBEq ω]

/-- **An explorer without memory answers what a recursive walk through the tree of choices finds.** In a
space in which every path from the start ends, it lists the distinct results below the start, each where
the recursive walk meets it first; the first result is the first of these; and listing all results
enters as many states as the tree has nodes. So does the loop with a stack, which knows no depth. -/
theorem exists_results_of_not_remembers {space : StateSpace σ χ κ ω} {height : Nat}
    {start : Offer σ χ} (hends : space.EndsWithin height start) {e : Explorer κ}
    (hplain : e.remembers = false) :
    ∃ e₁ e₂, (∀ depth, height ≤ depth →
        e.allResults space depth start = some ((space.results height start).eraseDups, e₁) ∧
        e.firstResult space depth start = some ((space.results height start).eraseDups.head?, e₂)) ∧
      e₁.entered = e.entered + (space.nodes height start).length ∧
      (∃ looks w, Pending.run space false looks (e.pending start) = some w ∧ w.explorer = e₁ ∧
        w.found.reverse = space.results height start) ∧
      ∃ looks w, Pending.run space true looks (e.pending start) = some w ∧ w.explorer = e₂ ∧
        w.found.head? = (space.results height start).head? := by
  have hplain' : (⟨e, []⟩ : Walk κ ω).explorer.remembers = false := hplain
  have hends' : ∀ o ∈ [start], space.EndsWithin height o := fun o ho =>
    List.mem_singleton.mp ho ▸ hends
  have hrun := Pending.run_eq_foldl_nodes hplain' hends'
  rw [List.flatMap_singleton] at hrun
  have hloop := Pending.loop_of_run hrun
  generalize hw : (space.nodes height start).foldl (Walk.take space) ⟨e, []⟩ = w at hrun hloop
  have hfound : w.found.reverse = space.results height start := by
    rw [← hw, Walk.found_foldl_take, List.append_nil, List.reverse_reverse,
      StateSpace.results_eq_nodes]
  have hall : e.allResults space height start =
      some ((space.results height start).eraseDups, w.explorer) := by
    rw [allResults, hloop.visit_eq hends, Option.map_some, hfound, distinct_eq_eraseDups]
  obtain ⟨e₂, hfirst, -⟩ := firstResult_of_allResults hall
  obtain ⟨looks, w₂, hrun₂, hhead, rfl⟩ := firstResult_iff_run.mp ⟨height, hfirst⟩
  refine ⟨w.explorer, w₂.explorer, fun depth hle => ⟨allResults_mono hall hle,
    firstResult_mono hfirst hle⟩, ?_, ⟨_, w, hrun, rfl, hfound⟩, looks, w₂, hrun₂, rfl, ?_⟩
  · rw [← hw, Walk.entered_foldl_take]
  · rw [← hhead, ← distinct_eq_eraseDups, head?_distinct]

/-- From `s` the choice `x` is not admissible; by way of `a` and of `b` the result `z` is found twice, on
two levels, and by way of `c` the result `w`, from which the choice `n` is not taken. All keys are one. -/
def bush : Table where
  rows := [
    ("s", ⟨["a", "x", "b", "c"], [("a", "a"), ("b", "b"), ("c", "c")], none, some "k"⟩),
    ("a", ⟨["n", "m"], [("n", "d"), ("m", "e")], none, some "k"⟩),
    ("d", ⟨[], [], some "z", some "k"⟩),
    ("e", ⟨[], [], none, some "k"⟩),
    ("b", ⟨["n"], [("n", "f")], none, some "k"⟩),
    ("f", ⟨["n"], [("n", "d")], none, some "k"⟩),
    ("c", ⟨["n"], [("n", "d")], some "w", some "k"⟩)]

/-- The tree has eight nodes. -/
theorem exists_results_of_not_remembers_bush :
    bush.space.EndsWithin 4 (bush.offer "s") ∧
    (Explorer.new false : Explorer String).remembers = false ∧
    ∃ e₁ e₂, (∀ depth, 4 ≤ depth →
        (Explorer.new false).allResults bush.space depth (bush.offer "s") = some (["z", "w"], e₁) ∧
        (Explorer.new false).firstResult bush.space depth (bush.offer "s") = some (some "z", e₂)) ∧
      e₁.entered = 8 ∧
      (∃ looks w, Pending.run bush.space false looks ((Explorer.new false).pending (bush.offer "s")) =
        some w ∧ w.explorer = e₁ ∧ w.found.reverse = ["z", "z", "w"]) ∧
      ∃ looks w, Pending.run bush.space true looks ((Explorer.new false).pending (bush.offer "s")) =
        some w ∧ w.explorer = e₂ ∧ w.found.head? = some "z" := by
  have hends : bush.space.EndsWithin 4 (bush.offer "s") := by
    refine .inr fun offer hoffer => .inr fun offer' hoffer' => .inr fun offer'' hoffer'' => .inl ?_
    revert offer offer' offer''
    decide
  have hresults : bush.space.results 4 (bush.offer "s") = ["z", "z", "w"] := by decide
  have hnodes : (bush.space.nodes 4 (bush.offer "s")).length = 8 := by decide
  have h := exists_results_of_not_remembers hends (e := Explorer.new false) rfl
  rw [hresults, hnodes] at h
  exact ⟨hends, rfl, h⟩

end Explorer

end GraphHom
