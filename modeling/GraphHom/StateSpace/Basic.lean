/-!
# State spaces

A state space says how one state leads to others: which choices a state admits, what a choice leads
to, and which states are done. States are values; a choice makes a new state and says which choices
to offer there.

The key of a state stands for the state when it is asked whether the state has been met before.
-/

namespace GraphHom

/-- How states of type `σ` lead to each other by choices of type `χ`. -/
structure StateSpace (σ χ κ ω : Type) where
  /-- Whether a choice is admissible in a state. -/
  canApply : σ → χ → Bool
  /-- The choices offered next and the state a choice leads to. -/
  apply : σ → χ → List χ × σ
  /-- Whether a state is done. -/
  isDone : σ → Bool
  /-- What identifies a state. -/
  key : σ → κ
  /-- The result of a state that is done. -/
  result : σ → ω

/-- A state together with the choices offered in it. -/
structure Offer (σ χ : Type) where
  /-- The state. -/
  state : σ
  /-- The choices offered, in the order in which they are tried. -/
  choices : List χ

/-- The states that the admissible choices of an offer lead to, each with its own offer. -/
def StateSpace.successors {σ χ κ ω : Type} (space : StateSpace σ χ κ ω) (offer : Offer σ χ) :
    List (Offer σ χ) :=
  (offer.choices.filter (space.canApply offer.state)).map fun choice =>
    let next := space.apply offer.state choice
    ⟨next.2, next.1⟩

end GraphHom
