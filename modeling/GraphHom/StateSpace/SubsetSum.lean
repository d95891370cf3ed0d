import GraphHom.Ascending
import GraphHom.StateSpace.Basic

/-!
# Subsets with a given sum

The state space of picking numbers below `bound` until they add up to `target`. A state is the set
of numbers picked so far; a number may be picked once, and only if the sum stays within the target.
-/

namespace GraphHom

/-- The task of picking numbers below `bound` with the sum `target`. -/
structure SubsetSum where
  /-- The numbers to pick from lie below it. -/
  bound : Nat
  /-- The sum to reach. -/
  target : Nat

namespace SubsetSum

/-- The numbers that are not picked yet, in ascending order. -/
def unpicked (s : SubsetSum) (picked : List Nat) : List Nat :=
  (List.range s.bound).filter (· ∉ picked)

/-- The sum of the numbers of a set. -/
def total (picked : List Nat) : Nat := picked.foldr (· + ·) 0

/-- The numbers of a set joined by `+`. -/
def text (picked : List Nat) : String := "+".intercalate (picked.map toString)

/-- The state space; its states are ascending lists of numbers. -/
def space (s : SubsetSum) : StateSpace (List Nat) Nat String String where
  canApply picked choice := choice ∉ picked && total picked + choice ≤ s.target
  apply picked choice :=
    let picked := insertBy id choice picked
    (s.unpicked picked, picked)
  isDone picked := total picked = s.target
  key := text
  result := text

/-- The state in which nothing is picked. -/
def offer (s : SubsetSum) : Offer (List Nat) Nat := ⟨[], s.unpicked []⟩

/-- A depth that no path exceeds: every number can be picked once, and the first pick may be a
number that only the start offers. -/
def depth (s : SubsetSum) : Nat := s.bound + 3

end SubsetSum

end GraphHom
