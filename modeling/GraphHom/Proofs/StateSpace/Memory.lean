import GraphHom.Proofs.StateSpace.First
import GraphHom.Proofs.StateSpace.Keys

/-!
# Memory on a tree

Where every path ends and keys are to be trusted, an explorer that remembers answers as one that does
not, and enters no more states on the way (`Explorer.exists_results_new`). What it answers is known
from `Walk.exists_visit`; that it enters no more is shown by letting the two walk side by side
(`Walk.entered_visit_le`): where one skips an offer the other goes through everything below it, and
wherever both enter, the one that remembers is `Walk.Ready` again for what comes next.
-/

namespace GraphHom

variable {σ χ κ ω : Type}

namespace Walk

open StateSpace

variable [BEq κ] [Hashable κ]
variable {space : StateSpace σ χ κ ω} {U : Offer σ χ → Prop} {firstOnly : Bool} {depth : Nat}
variable {w w' v v' : Walk κ ω} {offer : Offer σ χ} {l : List (Offer σ χ)}

/-! ## Two walks side by side -/

theorem isOver_congr (h : w.found = [] ↔ v.found = []) : w.isOver firstOnly = v.isOver firstOnly := by
  have hempty : w.found.isEmpty = v.found.isEmpty := by
    rw [Bool.eq_iff_iff, List.isEmpty_iff, List.isEmpty_iff, h]
  rw [isOver, isOver, hempty]

theorem ready_of_not_remembers (h : v.explorer.remembers = false) : v.Ready space U offer := by
  intro hrem
  rw [h] at hrem
  cases hrem

section Visits

variable [BEq ω] [Hashable ω] [LawfulBEq ω]

theorem Adds.found_eq_nil_iff {rs : List ω} (h : Adds space U w rs w') :
    w'.found = [] ↔ w.found = [] ∧ rs = [] := by
  simp only [List.eq_nil_iff_forall_not_mem, h.mem_found_iff, not_or, forall_and]

variable [LawfulBEq κ]

/-- `exists_visit` for walks that may stop: as long as a walk goes on, it adds all that lies below the
offers it has visited. -/
theorem exists_visit_of_not_isOver (hk : space.KeysDecide U) (hU : U offer)
    (hends : space.EndsWithin depth offer) (hready : w.Ready space U offer)
    (hover : w.isOver firstOnly = false) :
    ∃ w', visit space firstOnly depth w offer = some w' ∧
      (w'.found = [] ↔ w.found = [] ∧ space.results depth offer = []) ∧
      (w'.isOver firstOnly = false → Adds space U w (space.results depth offer) w') := by
  obtain ⟨w₁, hw₁, hadds⟩ := exists_visit hk hU hends hready
  cases firstOnly with
  | false => exact ⟨w₁, hw₁, hadds.found_eq_nil_iff, fun _ => hadds⟩
  | true =>
    obtain ⟨w₂, hw₂, hstop⟩ := exists_visit_stopsShort (isOver_true_eq_false_iff.mp hover) hw₁
    refine ⟨w₂, hw₂, hstop.found_eq_nil_iff.trans hadds.found_eq_nil_iff, fun hover₂ => ?_⟩
    have hnil : w₁.found = [] := hstop.found_eq_nil_iff.mp (isOver_true_eq_false_iff.mp hover₂)
    rw [hstop.eq_of_nil hnil]
    exact hadds

theorem entered_foldlM_le (hk : space.KeysDecide U)
    (hvisit : ∀ offer ∈ l, ∀ w w' v v' : Walk κ ω, w.Ready space U offer →
      v.explorer.remembers = false → (w.found = [] ↔ v.found = []) →
      visit space firstOnly depth w offer = some w' →
      visit space firstOnly depth v offer = some v' →
      w'.explorer.entered + v.explorer.entered ≤ v'.explorer.entered + w.explorer.entered)
    (hU : ∀ offer ∈ l, U offer) (hends : ∀ offer ∈ l, space.EndsWithin depth offer)
    (hready : ∀ offer ∈ l, w.Ready space U offer) (hplain : v.explorer.remembers = false)
    (hnil : w.found = [] ↔ v.found = [])
    (hw : l.foldlM (visit space firstOnly depth) w = some w')
    (hv : l.foldlM (visit space firstOnly depth) v = some v') :
    w'.explorer.entered + v.explorer.entered ≤ v'.explorer.entered + w.explorer.entered := by
  induction l generalizing w v with
  | nil =>
    cases hw
    cases hv
    exact Nat.le_of_eq (Nat.add_comm _ _)
  | cons offer l ih =>
    by_cases hover : w.isOver firstOnly = true
    · rw [foldlM_visit_of_isOver hover] at hw
      rw [foldlM_visit_of_isOver (isOver_congr hnil ▸ hover)] at hv
      cases hw
      cases hv
      exact Nat.le_of_eq (Nat.add_comm _ _)
    · have hmem := List.mem_cons_self (a := offer) (l := l)
      have hover' : w.isOver firstOnly = false := Bool.eq_false_iff.mpr hover
      obtain ⟨w₁, hw₁, hfound, hadds⟩ := exists_visit_of_not_isOver hk (hU offer hmem)
        (hends offer hmem) (hready offer hmem) hover'
      obtain ⟨v₁, hv₁, hfound', -⟩ := exists_visit_of_not_isOver hk (hU offer hmem)
        (hends offer hmem) (ready_of_not_remembers hplain) (isOver_congr hnil ▸ hover')
      rw [foldlM_visit_cons, hw₁, Option.bind_some] at hw
      rw [foldlM_visit_cons, hv₁, Option.bind_some] at hv
      have hfirst := hvisit offer hmem w w₁ v v₁ (hready offer hmem) hplain hnil hw₁ hv₁
      have hnil₁ : w₁.found = [] ↔ v₁.found = [] := by rw [hfound, hfound', hnil]
      by_cases hover₁ : w₁.isOver firstOnly = true
      · -- both have what they were looking for
        rw [foldlM_visit_of_isOver hover₁] at hw
        rw [foldlM_visit_of_isOver (isOver_congr hnil₁ ▸ hover₁)] at hv
        cases hw
        cases hv
        exact hfirst
      · have hadds₁ := hadds (Bool.eq_false_iff.mpr hover₁)
        have hrest := ih (fun o ho => hvisit o (List.mem_cons_of_mem offer ho))
          (fun o ho => hU o (List.mem_cons_of_mem offer ho))
          (fun o ho => hends o (List.mem_cons_of_mem offer ho))
          (fun o ho => hadds₁.ready (hready o (List.mem_cons_of_mem offer ho)))
          ((remembers_eq hv₁).trans hplain) hnil₁ hw hv
        omega

/-- **A walk with memory enters no more states** than one without, from wherever they start to visit
an offer. -/
theorem entered_visit_le (hk : space.KeysDecide U) (hU : U offer)
    (hends : space.EndsWithin depth offer) (hready : w.Ready space U offer)
    (hplain : v.explorer.remembers = false) (hnil : w.found = [] ↔ v.found = [])
    (hw : visit space firstOnly depth w offer = some w')
    (hv : visit space firstOnly depth v offer = some v') :
    w'.explorer.entered + v.explorer.entered ≤ v'.explorer.entered + w.explorer.entered := by
  induction depth generalizing w w' v v' offer with
  | zero => exact hends.elim
  | succ depth ih =>
    rcases visit_cases hw with ⟨rfl, -⟩ | ⟨henters, below, hbelow, hrest⟩
    · -- what one leaves out can only cost the other something
      have hle := entered_le hv
      omega
    · have hover : w.isOver firstOnly = v.isOver firstOnly := isOver_congr hnil
      have henters' : Enters space firstOnly v offer :=
        ⟨hover ▸ henters.1, by rw [Explorer.skips, hplain, Bool.false_and]⟩
      cases hbelow
      rcases hrest with ⟨hdone, rfl⟩ | ⟨hdone, hfold⟩
      · rw [visit_of_isDone henters' hdone] at hv
        cases hv
        show w.explorer.entered + 1 + v.explorer.entered ≤
          v.explorer.entered + 1 + w.explorer.entered
        omega
      · rw [visit_of_not_isDone henters' hdone] at hv
        have hnext := hends.of_next hdone
        have hle := entered_foldlM_le (v := v.entering space offer) hk
          (fun next hmem _ _ _ _ hr hp hn h h' =>
            ih (hk.next offer hU hdone next hmem) (hnext next hmem) hr hp hn h h')
          (hk.next offer hU hdone) hnext
          (fun next hmem => ready_of_enter hk hU hdone hends hready hmem) hplain hnil hfold hv
        have hle' : w'.explorer.entered + (v.explorer.entered + 1) ≤
          v'.explorer.entered + (w.explorer.entered + 1) := hle
        omega

end Visits

end Walk

namespace Explorer

variable [BEq κ] [Hashable κ] [LawfulBEq κ] [BEq ω] [Hashable ω] [LawfulBEq ω]

open StateSpace in
/-- **Memory makes no difference to answers, and saves states.** In a space in which every path from
the start ends, new explorers with and without memory list the same results in the same order and find
the same first result, and the one with memory enters at most as many states. Any depth will do that
no path from the start exceeds. -/
theorem exists_results_new {space : StateSpace σ χ κ ω} {U : Offer σ χ → Prop} {height : Nat}
    {start : Offer σ χ} (hk : space.KeysDecide U) (hU : U start)
    (hends : space.EndsWithin height start) :
    ∃ rs r e e' f f', (∀ depth, height ≤ depth →
        (Explorer.new true).allResults space depth start = some (rs, e) ∧
        (Explorer.new false).allResults space depth start = some (rs, e') ∧
        (Explorer.new true).firstResult space depth start = some (r, f) ∧
        (Explorer.new false).firstResult space depth start = some (r, f')) ∧
      e.entered ≤ e'.entered ∧ f.entered ≤ f'.entered := by
  obtain ⟨e, he⟩ := exists_allResults_new (ω := ω) hk hU hends true
  obtain ⟨e', he'⟩ := exists_allResults_new (ω := ω) hk hU hends false
  obtain ⟨f, hf, -⟩ := firstResult_of_allResults he
  obtain ⟨f', hf', -⟩ := firstResult_of_allResults he'
  have hready : Walk.Ready space U ⟨Explorer.new true, []⟩ start := by
    intro _ offer _ hmet
    simp [Explorer.new] at hmet
  have hentered : ∀ {firstOnly : Bool} {w v : Walk κ ω},
      Walk.visit space firstOnly height ⟨Explorer.new true, []⟩ start = some w →
      Walk.visit space firstOnly height ⟨Explorer.new false, []⟩ start = some v →
      w.explorer.entered ≤ v.explorer.entered := fun hw hv =>
    Walk.entered_visit_le (v := ⟨Explorer.new false, []⟩) hk hU hends hready rfl Iff.rfl hw hv
  refine ⟨_, _, e, e', f, f', fun depth hle => ⟨allResults_mono he hle, allResults_mono he' hle,
    firstResult_mono hf hle, firstResult_mono hf' hle⟩, ?_, ?_⟩
  · obtain ⟨w, hw, heq⟩ := Option.map_eq_some_iff.mp he
    obtain ⟨v, hv, heq'⟩ := Option.map_eq_some_iff.mp he'
    rw [← (Prod.mk.inj heq).2, ← (Prod.mk.inj heq').2]
    exact hentered hw hv
  · obtain ⟨w, hw, heq⟩ := Option.map_eq_some_iff.mp hf
    obtain ⟨v, hv, heq'⟩ := Option.map_eq_some_iff.mp hf'
    rw [← (Prod.mk.inj heq).2, ← (Prod.mk.inj heq').2]
    exact hentered hw hv

/-- From `s` two ways lead to the result `z`, by way of `a` and of `b`, which have one key. -/
def diamond : Table where
  rows := [
    ("s", ⟨["l", "r"], [("l", "a"), ("r", "b")], none, none⟩),
    ("a", ⟨["n"], [("n", "x")], none, some "k"⟩),
    ("b", ⟨["n"], [("n", "y")], none, some "k"⟩),
    ("x", ⟨[], [], some "z", some "e"⟩),
    ("y", ⟨[], [], some "z", some "e"⟩)]

/-- Two states with one key. -/
theorem exists_results_new_diamond :
    diamond.space.KeysDecide (diamond.Listed ["s", "a", "b", "x", "y"]) ∧
    diamond.Listed ["s", "a", "b", "x", "y"] (diamond.offer "s") ∧
    diamond.space.EndsWithin 3 (diamond.offer "s") ∧
    ∃ rs r e e' f f', (∀ depth, 3 ≤ depth →
        (Explorer.new true).allResults diamond.space depth (diamond.offer "s") = some (rs, e) ∧
        (Explorer.new false).allResults diamond.space depth (diamond.offer "s") = some (rs, e') ∧
        (Explorer.new true).firstResult diamond.space depth (diamond.offer "s") = some (r, f) ∧
        (Explorer.new false).firstResult diamond.space depth (diamond.offer "s") = some (r, f')) ∧
      e.entered ≤ e'.entered ∧ f.entered ≤ f'.entered := by
  have hk : diamond.space.KeysDecide (diamond.Listed ["s", "a", "b", "x", "y"]) :=
    Table.keysDecide_listed (by decide) (by decide) (by decide)
  have hstart : diamond.Listed ["s", "a", "b", "x", "y"] (diamond.offer "s") := ⟨by decide, rfl⟩
  have hends : diamond.space.EndsWithin 3 (diamond.offer "s") := by
    refine .inr fun offer hoffer => .inr fun offer' hoffer' => .inl ?_
    revert offer offer'
    decide
  exact ⟨hk, hstart, hends, exists_results_new hk hstart hends⟩

end Explorer

end GraphHom
