import GraphHom.Repetition

/-!
# Constraint problems

A problem has variables with finite domains, constraints between the values of two variables, and
groups of variables whose values must be pairwise different.

Variables are looked up by identifier when a constraint or a group is added, and from then on are
known by their positions. The problem keeps, for every variable, the numbers of the constraints and
groups it takes part in; a variable in none is isolated. An addition that names an undeclared
variable is refused and leaves the problem as it was.
-/

namespace GraphHom

variable {ι δ : Type}

/-- A variable with the values it may take. -/
structure Variable (ι δ : Type) where
  /-- The identifier of the variable. -/
  id : ι
  /-- The values it may take, in the order in which they are tried. -/
  domain : List δ

/-- A condition on the values of two variables. -/
structure Constraint (ι δ : Type) where
  /-- The variable on the left. -/
  lhs : ι
  /-- The variable on the right. -/
  rhs : ι
  /-- Whether a value on the left goes with a value on the right. -/
  holds : δ → δ → Bool

/-- A constraint of a problem with the positions of its variables. -/
structure PlacedConstraint (ι δ : Type) where
  /-- The constraint. -/
  constraint : Constraint ι δ
  /-- The position of the variable on the left. -/
  lhsAt : Nat
  /-- The position of the variable on the right. -/
  rhsAt : Nat

/-- Variables with constraints and all-different groups on them. -/
structure Problem (ι δ : Type) where
  /-- The variables in order of declaration. -/
  vars : List (Variable ι δ)
  /-- The constraints in the order in which they were added. -/
  constraints : List (PlacedConstraint ι δ)
  /-- For every variable the numbers of the constraints on it. -/
  constraintIndex : List (List Nat)
  /-- The groups in the order in which they were added, as positions of variables. -/
  groups : List (List Nat)
  /-- For every variable the numbers of the groups it is in, once for every time it is listed. -/
  groupIndex : List (List Nat)

namespace Problem

/-- Why a problem, or an addition to one, is refused. -/
inductive Error (ι : Type) where
  /-- An identifier is declared a second time. -/
  | duplicateVariable (id : ι)
  /-- A constraint or a group names a variable that is not declared. -/
  | undeclaredVariable (id : ι)
deriving DecidableEq

/-- The wording of an error, given how identifiers are written. -/
def Error.message (write : ι → String) : Error ι → String
  | duplicateVariable id => s!"variable {write id} is declared twice"
  | undeclaredVariable id => s!"constraint refers to undeclared variable {write id}"

/-! ## Views -/

/-- The values the variable at position `v` may take. -/
def domain (p : Problem ι δ) (v : Nat) : List δ :=
  match p.vars[v]? with
  | some x => x.domain
  | none => []

/-- The numbers of the constraints on the variable at position `v`. -/
def constraintsOn (p : Problem ι δ) (v : Nat) : List Nat := p.constraintIndex[v]?.getD []

/-- The numbers of the groups that the variable at position `v` is in. -/
def groupsOf (p : Problem ι δ) (v : Nat) : List Nat := p.groupIndex[v]?.getD []

/-- The variable at position `v` is in no constraint and in no group. -/
def isIsolated (p : Problem ι δ) (v : Nat) : Bool :=
  (p.constraintsOn v).isEmpty && (p.groupsOf v).isEmpty

/-- The positions of the isolated variables in ascending order. -/
def isolated (p : Problem ι δ) : List Nat := (List.range p.vars.length).filter p.isIsolated

/-! ## Building -/

variable [DecidableEq ι]

/-- The problem with the given variables and nothing else. -/
def ofVariables (vars : List (Variable ι δ)) : Except (Error ι) (Problem ι δ) :=
  match firstRepeat? Variable.id vars with
  | some x => .error (.duplicateVariable x.id)
  | none => .ok {
      vars := vars
      constraints := []
      constraintIndex := List.replicate vars.length []
      groups := []
      groupIndex := List.replicate vars.length [] }

/-- The position of a declared variable. -/
def position (p : Problem ι δ) (id : ι) : Except (Error ι) Nat :=
  match p.vars.findIdx? (·.id = id) with
  | some v => .ok v
  | none => .error (.undeclaredVariable id)

/-- Adds the number `n` to the entries of an index at every listed position. -/
def enterAt (index : List (List Nat)) (n : Nat) (positions : List Nat) : List (List Nat) :=
  positions.foldl (fun index v => index.modify v (· ++ [n])) index

/-- Adds a constraint; its left variable is looked up first. -/
def addConstraint (p : Problem ι δ) (c : Constraint ι δ) : Except (Error ι) (Problem ι δ) := do
  let lhs ← p.position c.lhs
  let rhs ← p.position c.rhs
  return { p with
    constraints := p.constraints ++ [⟨c, lhs, rhs⟩]
    constraintIndex := enterAt p.constraintIndex p.constraints.length
      (if rhs = lhs then [lhs] else [lhs, rhs]) }

/-- Adds a group of variables that must take pairwise different values. -/
def addAllDistinct (p : Problem ι δ) (ids : List ι) : Except (Error ι) (Problem ι δ) := do
  let members ← ids.mapM p.position
  return { p with
    groups := p.groups ++ [members]
    groupIndex := enterAt p.groupIndex p.groups.length members }

end Problem

end GraphHom
