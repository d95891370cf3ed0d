import GraphHom.Proofs.StateSpace.Walk
import GraphHom.StateSpace.Table

/-!
# Trustworthy keys

Keys are to be trusted (`StateSpace.KeysDecide`) where they stand for what is offered: offers with one
key are done alike, and their choices correspond to each other (`StateSpace.keysDecide_of_choices`). For
a space given by a table this can be read off its rows (`Table.keysDecide_listed`).
-/

namespace GraphHom

variable {σ χ κ ω : Type}

/-- Keys are to be trusted where offers with one key are done alike, with one result, and offer the
same choices, of which the same are admissible and lead to the same keys. -/
theorem StateSpace.keysDecide_of_choices {space : StateSpace σ χ κ ω} {U : Offer σ χ → Prop}
    (hnext : ∀ offer, U offer → ¬space.isDone offer.state = true →
      ∀ offer' ∈ space.successors offer, U offer')
    (hdone : ∀ offer offer', U offer → U offer' → space.key offer.state = space.key offer'.state →
      space.isDone offer.state = space.isDone offer'.state ∧
        space.result offer.state = space.result offer'.state)
    (hchoices : ∀ offer offer', U offer → U offer' →
      space.key offer.state = space.key offer'.state → offer.choices = offer'.choices ∧
        ∀ choice ∈ offer.choices,
          space.canApply offer.state choice = space.canApply offer'.state choice ∧
            space.key (space.apply offer.state choice).2 =
              space.key (space.apply offer'.state choice).2) :
    space.KeysDecide U where
  next := hnext
  isDone offer offer' h h' hkey := (hdone offer offer' h h' hkey).1
  result offer offer' h h' hkey _ := (hdone offer offer' h h' hkey).2
  successors offer offer' h h' hkey _ := by
    obtain ⟨hsame, hagree⟩ := hchoices offer offer' h h' hkey
    have hfilter : offer.choices.filter (space.canApply offer.state) =
        offer.choices.filter (space.canApply offer'.state) :=
      List.filter_congr fun choice hmem => (hagree choice hmem).1
    simp only [successors, List.map_map]
    rw [← hsame, ← hfilter]
    exact List.map_congr_left fun choice hmem => (hagree choice (List.mem_of_mem_filter hmem)).2

namespace Table

variable {t : Table} {states : List String} {offer offer' : Offer String String}

/-- The offer of a listed state. -/
def Listed (t : Table) (states : List String) (offer : Offer String String) : Prop :=
  offer.state ∈ states ∧ offer = t.offer offer.state

/-- Whatever leads to a state, what is offered there is what the row of the state says. -/
theorem eq_offer_of_mem_successors (h : offer' ∈ t.space.successors offer) :
    offer' = t.offer offer'.state := by
  obtain ⟨choice, -, rfl⟩ := List.mem_map.mp h
  rfl

/-- Whether the keys of a table are to be trusted can be read off the rows of its states. -/
theorem keysDecide_listed
    (hnext : ∀ state ∈ states, ∀ next ∈ t.space.successors (t.offer state), next.state ∈ states)
    (hdone : ∀ state ∈ states, ∀ state' ∈ states, t.space.key state = t.space.key state' →
      t.space.isDone state = t.space.isDone state' ∧ t.space.result state = t.space.result state')
    (hchoices : ∀ state ∈ states, ∀ state' ∈ states, t.space.key state = t.space.key state' →
      (t.row state).choices = (t.row state').choices ∧
        ∀ choice ∈ (t.row state).choices,
          t.space.canApply state choice = t.space.canApply state' choice ∧
            t.space.key (t.space.apply state choice).2 =
              t.space.key (t.space.apply state' choice).2) :
    t.space.KeysDecide (t.Listed states) := by
  refine StateSpace.keysDecide_of_choices ?_ ?_ ?_
  · rintro offer ⟨hmem, heq⟩ - next hmem'
    rw [heq] at hmem'
    exact ⟨hnext _ hmem next hmem', eq_offer_of_mem_successors hmem'⟩
  · rintro offer offer' ⟨hmem, -⟩ ⟨hmem', -⟩ hkey
    exact hdone _ hmem _ hmem' hkey
  · rintro offer offer' ⟨hmem, heq⟩ ⟨hmem', heq'⟩ hkey
    rw [heq, heq']
    exact hchoices _ hmem _ hmem' hkey

end Table

end GraphHom
