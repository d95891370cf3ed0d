import GraphHom.Constraint.Problem

/-!
# Relations between integers

The conditions that a problem over integers can put on two of its variables.
-/

namespace GraphHom

/-- A relation between two integers. -/
inductive Relation where
  /-- The left is the right. -/
  | equal
  /-- The left is not the right. -/
  | unequal
  /-- The left is less than the right. -/
  | less
  /-- The left is at most the right. -/
  | atMost
  /-- The left and the right are not `k` apart. -/
  | notApart (k : Int)
  /-- The left and the right are one of the listed pairs. -/
  | oneOf (pairs : List (Int × Int))
deriving DecidableEq

/-- Whether a relation holds. -/
def Relation.holds : Relation → Int → Int → Bool
  | equal, a, b => a = b
  | unequal, a, b => a ≠ b
  | less, a, b => a < b
  | atMost, a, b => a ≤ b
  | notApart k, a, b => ((a - b).natAbs : Int) ≠ k
  | oneOf pairs, a, b => (a, b) ∈ pairs

/-- The constraint that `r` holds between two variables. -/
def Relation.constraint {ι : Type} (r : Relation) (lhs rhs : ι) : Constraint ι Int :=
  ⟨lhs, rhs, r.holds⟩

end GraphHom
