import GraphHom.Proofs.Repetition
import GraphHom.StateSpace.Explorer
import Mathlib.Data.List.Basic

/-!
# What walks find

`StateSpace.results` lists the results below an offer as a walk without memory meets them, for a
space in which every path from there ends (`EndsWithin`). An explorer that remembers leaves states
out. It loses no result where keys are to be trusted, that is where offers with one key have the same
results and lead to offers with the same keys (`KeysDecide`):

* `Walk.Ready` — the invariant before an offer: what has been met already, and is no higher than the
  offer, has had all its results found;
* `Walk.exists_visit` — a visit adds the results below its offer, up to repetitions;
* `Explorer.exists_allResults_new` — so every new explorer finds the distinct results, in one order.
-/

namespace GraphHom

variable {σ χ κ ω : Type}

namespace StateSpace

variable {space : StateSpace σ χ κ ω} {offer offer' : Offer σ χ} {depth depth' : Nat}

/-! ## Results without memory -/

/-- Every path down from the offer ends after at most `depth` states, the first one included. -/
def EndsWithin (space : StateSpace σ χ κ ω) : Nat → Offer σ χ → Prop
  | 0, _ => False
  | depth + 1, offer => space.isDone offer.state = true ∨
      ∀ next ∈ space.successors offer, space.EndsWithin depth next

/-- The results below an offer, down to a given depth. -/
def results (space : StateSpace σ χ κ ω) : Nat → Offer σ χ → List ω
  | 0, _ => []
  | depth + 1, offer =>
    if space.isDone offer.state then [space.result offer.state]
    else (space.successors offer).flatMap (space.results depth)

theorem results_of_isDone (h : space.isDone offer.state = true) :
    space.results (depth + 1) offer = [space.result offer.state] := by
  rw [results, if_pos h]

theorem results_of_not_isDone (h : ¬space.isDone offer.state = true) :
    space.results (depth + 1) offer = (space.successors offer).flatMap (space.results depth) := by
  rw [results, if_neg h]

theorem EndsWithin.of_next (h : space.EndsWithin (depth + 1) offer)
    (hdone : ¬space.isDone offer.state = true) :
    ∀ next ∈ space.successors offer, space.EndsWithin depth next :=
  h.resolve_left hdone

theorem EndsWithin.mono (h : space.EndsWithin depth offer) (hle : depth ≤ depth') :
    space.EndsWithin depth' offer := by
  induction depth generalizing depth' offer with
  | zero => exact h.elim
  | succ depth ih =>
    obtain ⟨e, rfl⟩ : ∃ e, depth' = e + 1 := ⟨depth' - 1, by omega⟩
    rcases h with hdone | hnext
    · exact .inl hdone
    · exact .inr fun next hmem => ih (hnext next hmem) (by omega)

/-- Looking further down than all paths go finds nothing more. -/
theorem results_of_le (h : space.EndsWithin depth offer) (hle : depth ≤ depth') :
    space.results depth' offer = space.results depth offer := by
  induction depth generalizing depth' offer with
  | zero => exact h.elim
  | succ depth ih =>
    obtain ⟨e, rfl⟩ : ∃ e, depth' = e + 1 := ⟨depth' - 1, by omega⟩
    by_cases hdone : space.isDone offer.state = true
    · rw [results_of_isDone hdone, results_of_isDone hdone]
    · rw [results_of_not_isDone hdone, results_of_not_isDone hdone]
      exact List.flatMap_congr fun next hmem => ih (h.of_next hdone next hmem) (by omega)

theorem results_eq (h : space.EndsWithin depth offer) (h' : space.EndsWithin depth' offer) :
    space.results depth offer = space.results depth' offer := by
  rcases Nat.le_total depth depth' with hle | hle
  · exact (results_of_le h hle).symm
  · exact results_of_le h' hle

/-! ## Trustworthy keys -/

/-- On the offers in `U`, which successors never leave, the key of an offer decides what is found
below it. -/
structure KeysDecide (space : StateSpace σ χ κ ω) (U : Offer σ χ → Prop) : Prop where
  /-- Successors stay in `U`. -/
  next : ∀ offer, U offer → ¬space.isDone offer.state = true →
    ∀ offer' ∈ space.successors offer, U offer'
  /-- The key says whether the state is done. -/
  isDone : ∀ offer offer', U offer → U offer' → space.key offer.state = space.key offer'.state →
    space.isDone offer.state = space.isDone offer'.state
  /-- The key says what the result is. -/
  result : ∀ offer offer', U offer → U offer' → space.key offer.state = space.key offer'.state →
    space.isDone offer.state = true → space.result offer.state = space.result offer'.state
  /-- The key says what the keys of the successors are. -/
  successors : ∀ offer offer', U offer → U offer' →
    space.key offer.state = space.key offer'.state → ¬space.isDone offer.state = true →
    (space.successors offer).map (fun o => space.key o.state) =
      (space.successors offer').map fun o => space.key o.state

/-- Where no two offers have one key, keys are to be trusted. -/
theorem keysDecide_of_injective {U : Offer σ χ → Prop}
    (hnext : ∀ offer, U offer → ¬space.isDone offer.state = true →
      ∀ offer' ∈ space.successors offer, U offer')
    (hinj : ∀ offer offer', U offer → U offer' →
      space.key offer.state = space.key offer'.state → offer = offer') :
    space.KeysDecide U where
  next := hnext
  isDone offer offer' h h' hkey := by rw [hinj offer offer' h h' hkey]
  result offer offer' h h' hkey _ := by rw [hinj offer offer' h h' hkey]
  successors offer offer' h h' hkey _ := by rw [hinj offer offer' h h' hkey]

namespace KeysDecide

variable {U : Offer σ χ → Prop}

theorem endsWithin (hk : space.KeysDecide U) (ho : U offer) (ho' : U offer')
    (hkey : space.key offer.state = space.key offer'.state) (h : space.EndsWithin depth offer) :
    space.EndsWithin depth offer' := by
  induction depth generalizing offer offer' with
  | zero => exact h
  | succ depth ih =>
    by_cases hdone : space.isDone offer.state = true
    · exact .inl (hk.isDone offer offer' ho ho' hkey ▸ hdone)
    · have hdone' : ¬space.isDone offer'.state = true := hk.isDone offer offer' ho ho' hkey ▸ hdone
      refine .inr fun next' hnext' => ?_
      have hmem := List.mem_map_of_mem (f := fun o => space.key o.state) hnext'
      rw [← hk.successors offer offer' ho ho' hkey hdone] at hmem
      obtain ⟨next, hnext, heq⟩ := List.mem_map.mp hmem
      exact ih (hk.next offer ho hdone next hnext) (hk.next offer' ho' hdone' next' hnext') heq
        (h.of_next hdone next hnext)

theorem results (hk : space.KeysDecide U) (ho : U offer) (ho' : U offer')
    (hkey : space.key offer.state = space.key offer'.state) :
    space.results depth offer = space.results depth offer' := by
  induction depth generalizing offer offer' with
  | zero => rfl
  | succ depth ih =>
    by_cases hdone : space.isDone offer.state = true
    · rw [results_of_isDone hdone, results_of_isDone (hk.isDone offer offer' ho ho' hkey ▸ hdone),
        hk.result offer offer' ho ho' hkey hdone]
    · have hdone' : ¬space.isDone offer'.state = true := hk.isDone offer offer' ho ho' hkey ▸ hdone
      rw [results_of_not_isDone hdone, results_of_not_isDone hdone']
      have hkeys := hk.successors offer offer' ho ho' hkey hdone
      have hU := hk.next offer ho hdone
      have hU' := hk.next offer' ho' hdone'
      -- the two lists of successors go along with each other, key by key
      generalize space.successors offer = l at hkeys hU
      generalize space.successors offer' = l' at hkeys hU'
      induction l generalizing l' with
      | nil =>
        rw [List.map_nil, eq_comm, List.map_eq_nil_iff] at hkeys
        rw [hkeys]
      | cons next l ihl =>
        obtain ⟨next', l', rfl, hhead, htail⟩ := List.map_eq_cons_iff.mp hkeys.symm
        obtain ⟨hn, hl⟩ := List.forall_mem_cons.mp hU
        obtain ⟨hn', hl'⟩ := List.forall_mem_cons.mp hU'
        rw [List.flatMap_cons, List.flatMap_cons, ih hn hn' hhead.symm, ihl hl l' htail.symm hl']

end KeysDecide

end StateSpace

namespace Walk

open StateSpace

variable [BEq κ] [Hashable κ]
variable {space : StateSpace σ χ κ ω} {U : Offer σ χ → Prop} {depth : Nat}
variable {w w' w'' : Walk κ ω} {offer offer' : Offer σ χ} {rs rs' : List ω}

/-! ## The invariant of a walk -/

/-- The walk has found all results below the offer. -/
def HasFound (space : StateSpace σ χ κ ω) (w : Walk κ ω) (offer : Offer σ χ) : Prop :=
  ∀ depth, space.EndsWithin depth offer → space.results depth offer ⊆ w.found

/-- The walk may go on to the offer: it has found all results below every offer that it has met and
that is no higher. The offers on the way down to this one are met too, but they are higher. -/
def Ready (space : StateSpace σ χ κ ω) (U : Offer σ χ → Prop) (w : Walk κ ω)
    (offer : Offer σ χ) : Prop :=
  w.explorer.remembers = true → ∀ offer', U offer' →
    w.explorer.met.contains (space.key offer'.state) = true →
    (∀ depth, space.EndsWithin depth offer → space.EndsWithin depth offer') →
    w.HasFound space offer'

section Enter

variable [LawfulBEq κ]

theorem contains_met_enter {e : Explorer κ} {k k' : κ} (h : (e.enter k).met.contains k' = true) :
    e.met.contains k' = true ∨ k' = k := by
  unfold Explorer.enter at h
  split at h
  · rw [Std.HashSet.contains_insert, Bool.or_eq_true, beq_iff_eq] at h
    exact h.symm.imp id Eq.symm
  · exact .inl h

/-- After entering an offer the walk may go on to its successors: the offer itself is higher than
they are, and so is every other offer with its key. -/
theorem ready_of_enter (hk : space.KeysDecide U) (hU : U offer)
    (hdone : ¬space.isDone offer.state = true) (hends : space.EndsWithin (depth + 1) offer)
    (hready : w.Ready space U offer) (hnext : offer' ∈ space.successors offer) :
    Ready space U ⟨w.explorer.enter (space.key offer.state), w.found⟩ offer' := by
  intro hrem other hother hmet hle
  have hbelow : ∀ d, space.EndsWithin d offer → ∃ e, d = e + 1 ∧ space.EndsWithin e offer' := by
    intro d hd
    cases d with
    | zero => exact hd.elim
    | succ d => exact ⟨d, rfl, hd.of_next hdone offer' hnext⟩
  rcases contains_met_enter hmet with hmet | hkey
  · -- what is no higher than the successor is no higher than the offer
    refine hready hrem other hother hmet fun d hd => ?_
    obtain ⟨e, rfl, he⟩ := hbelow d hd
    exact (hle e he).mono (Nat.le_succ e)
  · -- going down from the successor would be as far as from the offer
    have hnever : ∀ d, ¬space.EndsWithin d offer' := by
      intro d
      induction d with
      | zero => exact fun h => h
      | succ d ih =>
        intro hd
        obtain ⟨e, he, hends'⟩ := hbelow _ (hk.endsWithin hother hU hkey (hle _ hd))
        rw [← Nat.succ.inj he] at hends'
        exact ih hends'
    exact absurd (hends.of_next hdone offer' hnext) (hnever depth)

end Enter

variable [BEq ω] [Hashable ω]

/-- From `w` to `w'` the results `rs` have been found, and with every newly met offer all below it. -/
structure Adds (space : StateSpace σ χ κ ω) (U : Offer σ χ → Prop) (w : Walk κ ω) (rs : List ω)
    (w' : Walk κ ω) : Prop where
  /-- The explorer remembers as much as before. -/
  remembers : w'.explorer.remembers = w.explorer.remembers
  /-- The results have been added, except where they repeat others. -/
  found : distinct w'.found.reverse = distinct (w.found.reverse ++ rs)
  /-- What has been met since is settled. -/
  met : w.explorer.remembers = true → ∀ offer, U offer →
    w'.explorer.met.contains (space.key offer.state) = true →
    w.explorer.met.contains (space.key offer.state) = true ∨ w'.HasFound space offer

namespace Adds

theorem nil : Adds space U w [] w :=
  ⟨rfl, by rw [List.append_nil], fun _ _ _ hmet => .inl hmet⟩

variable [LawfulBEq ω]

theorem mem_found_iff (h : Adds space U w rs w') {r : ω} : r ∈ w'.found ↔ r ∈ w.found ∨ r ∈ rs := by
  rw [← List.mem_reverse, ← mem_distinct_iff, h.found, mem_distinct_iff, List.mem_append,
    List.mem_reverse]

theorem hasFound (h : Adds space U w rs w') (hf : w.HasFound space offer) :
    w'.HasFound space offer :=
  fun depth hends _ hr => h.mem_found_iff.mpr (.inl (hf depth hends hr))

theorem ready (h : Adds space U w rs w') (hr : w.Ready space U offer) : w'.Ready space U offer := by
  intro hrem offer' hU hmet hle
  rw [h.remembers] at hrem
  rcases h.met hrem offer' hU hmet with hmet | hfound
  · exact h.hasFound (hr hrem offer' hU hmet hle)
  · exact hfound

theorem trans (h : Adds space U w rs w') (h' : Adds space U w' rs' w'') :
    Adds space U w (rs ++ rs') w'' where
  remembers := h'.remembers.trans h.remembers
  found := by rw [h'.found, distinct_append_congr h.found, List.append_assoc]
  met hrem offer hU hmet := by
    rcases h'.met (h.remembers.trans hrem) offer hU hmet with hmet | hfound
    · exact (h.met hrem offer hU hmet).imp id h'.hasFound
    · exact .inr hfound

end Adds

/-! ## Visits -/

section Visits

variable [LawfulBEq ω]

/-- A skipped offer adds nothing, because everything below it has been found. -/
theorem adds_of_skips (hU : U offer) (hends : space.EndsWithin depth offer)
    (hready : w.Ready space U offer)
    (hskip : w.explorer.skips (space.key offer.state) = true) :
    Adds space U w (space.results depth offer) w := by
  unfold Explorer.skips at hskip
  rw [Bool.and_eq_true] at hskip
  refine ⟨rfl, (distinct_append_of_subset fun r hr => ?_).symm, fun _ _ _ hmet => .inl hmet⟩
  exact List.mem_reverse.mpr
    (hready hskip.1 offer hU hskip.2 (fun _ h => h) depth hends hr)

/-- Going through a list of offers, if each visit adds the results below its offer. -/
theorem exists_foldlM_visit {l : List (Offer σ χ)}
    (hvisit : ∀ offer ∈ l, ∀ w : Walk κ ω, w.Ready space U offer →
      ∃ w', visit space false depth w offer = some w' ∧
        Adds space U w (space.results depth offer) w')
    (hready : ∀ offer ∈ l, w.Ready space U offer) :
    ∃ w', l.foldlM (visit space false depth) w = some w' ∧
      Adds space U w (l.flatMap (space.results depth)) w' := by
  induction l generalizing w with
  | nil => exact ⟨w, rfl, Adds.nil⟩
  | cons offer l ih =>
    obtain ⟨w₁, hw₁, hadds₁⟩ := hvisit offer List.mem_cons_self w (hready offer List.mem_cons_self)
    obtain ⟨w₂, hw₂, hadds₂⟩ := ih (fun o ho => hvisit o (List.mem_cons_of_mem offer ho))
      fun o ho => hadds₁.ready (hready o (List.mem_cons_of_mem offer ho))
    refine ⟨w₂, ?_, hadds₁.trans hadds₂⟩
    rw [List.foldlM_cons, hw₁]
    exact hw₂

variable [LawfulBEq κ]

/-- Having entered an offer and found everything below it, the walk has added that. -/
theorem adds_of_enter (hk : space.KeysDecide U) (hU : U offer)
    (hends : space.EndsWithin depth offer)
    (h : Adds space U ⟨w.explorer.enter (space.key offer.state), w.found⟩
      (space.results depth offer) w') :
    Adds space U w (space.results depth offer) w' where
  remembers := h.remembers
  found := h.found
  met hrem offer' hU' hmet := by
    rcases h.met hrem offer' hU' hmet with hmet | hfound
    · rcases contains_met_enter hmet with hmet | hkey
      · exact .inl hmet
      · -- below an offer with the key of this one lies the same
        refine .inr fun d hd r hr => h.mem_found_iff.mpr (.inr ?_)
        rw [hk.results hU' hU hkey] at hr
        rwa [results_eq hends (hk.endsWithin hU' hU hkey hd)]
    · exact .inr hfound

/-- **A visit finds what is below its offer.** With or without memory, it adds the results below the
offer, except where they repeat others. -/
theorem exists_visit (hk : space.KeysDecide U) (hU : U offer)
    (hends : space.EndsWithin depth offer) (hready : w.Ready space U offer) :
    ∃ w', visit space false depth w offer = some w' ∧
      Adds space U w (space.results depth offer) w' := by
  induction depth generalizing w offer with
  | zero => exact hends.elim
  | succ depth ih =>
    unfold visit
    by_cases hskip : w.explorer.skips (space.key offer.state) = true
    · -- met before: the walk stays as it is
      refine ⟨w, ?_, adds_of_skips hU hends hready hskip⟩
      simp [hskip]
    · have hover : (w.isOver false || w.explorer.skips (space.key offer.state)) = false := by
        simp [isOver, hskip]
      simp only [hover]
      by_cases hdone : space.isDone offer.state = true
      · -- done: its result is the only one below it
        refine ⟨_, if_pos hdone, adds_of_enter hk hU hends ?_⟩
        rw [results_of_isDone hdone]
        refine ⟨rfl, by rw [List.reverse_cons], fun _ _ _ hmet => .inl hmet⟩
      · -- otherwise the walk goes through the successors, ready for each of them
        have hnext := hends.of_next hdone
        obtain ⟨w', hw', hadds⟩ := exists_foldlM_visit
          (fun next hmem w hw => ih (hk.next offer hU hdone next hmem) (hnext next hmem) hw)
          fun next hmem => ready_of_enter hk hU hdone hends hready hmem
        refine ⟨w', ?_, adds_of_enter hk hU hends ?_⟩
        · rw [if_neg hdone]
          exact hw'
        · rw [results_of_not_isDone hdone]
          exact hadds

end Visits

end Walk

namespace Explorer

variable [BEq κ] [Hashable κ] [LawfulBEq κ] [BEq ω] [Hashable ω] [LawfulBEq ω]

/-- **Memory makes no difference to what is found.** A new explorer, remembering or not, finds the
distinct results below the start in the order in which a walk without memory meets them. -/
theorem exists_allResults_new {space : StateSpace σ χ κ ω} {U : Offer σ χ → Prop} {depth : Nat}
    {start : Offer σ χ} (hk : space.KeysDecide U) (hU : U start)
    (hends : space.EndsWithin depth start) (remembers : Bool) :
    ∃ e, (Explorer.new remembers).allResults space depth start =
      some (distinct (space.results depth start), e) := by
  have hready : Walk.Ready space U ⟨Explorer.new remembers, []⟩ start := by
    intro _ offer _ hmet
    simp [Explorer.new] at hmet
  obtain ⟨w, hw, hadds⟩ := Walk.exists_visit hk hU hends hready
  refine ⟨w.explorer, ?_⟩
  rw [allResults, hw]
  show some (distinct w.found.reverse, w.explorer) = _
  rw [hadds.found]
  rfl

end Explorer

end GraphHom
