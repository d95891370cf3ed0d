import GraphHom.Constraint.Problem

/-!
# Solving constraint problems

A depth-first search that binds one variable at a time. At every step it takes the open variable
with the fewest values that agree with the variables already bound, the first declared among equals,
and tries those values in the order of the domain; a variable without such values ends the branch.
There is no propagation.

Isolated variables take no part in the search. They are multiplied in afterwards, in order of
declaration, the last one varying fastest.

`solveAll` lists all solutions, `solveOne` stops at the first.
-/

namespace GraphHom

variable {ι δ : Type}

/-- For every variable the position in its domain of the value it is bound to, if it is bound. -/
abbrev Selection : Type := List (Option Nat)

/-- Variables with their values. -/
abbrev Assignment (ι δ : Type) : Type := List (ι × δ)

/-- Whether a constraint allows the variable at position `v` the value `d` when the other variables
have the values that `value` gives them; an unbound variable allows everything. -/
def PlacedConstraint.allows (c : PlacedConstraint ι δ) (value : Nat → Option δ) (v : Nat) (d : δ) :
    Bool :=
  if c.lhsAt = v ∧ c.rhsAt = v then c.constraint.holds d d
  else if c.lhsAt = v then (value c.rhsAt).all fun other => c.constraint.holds d other
  else (value c.lhsAt).all fun other => c.constraint.holds other d

namespace Problem

/-! ## Selections -/

/-- The selection that binds no variable. -/
def nothingBound (p : Problem ι δ) : Selection := List.replicate p.vars.length none

/-- The value of the variable at position `v`, if it is bound. -/
def value (p : Problem ι δ) (sel : Selection) (v : Nat) : Option δ :=
  match sel[v]? with
  | some (some i) => (p.domain v)[i]?
  | _ => none

/-- The bound variables with their values, in order of declaration. -/
def assignment (p : Problem ι δ) (sel : Selection) : Assignment ι δ :=
  p.vars.zipIdx.filterMap fun (x, v) => (p.value sel v).map fun d => (x.id, d)

/-- The positions of the variables that are neither bound nor isolated, in ascending order. -/
def openVariables (p : Problem ι δ) (sel : Selection) : List Nat :=
  (List.range p.vars.length).filter fun v => sel[v]? = some none && !p.isIsolated v

variable [DecidableEq δ]

/-- Whether the value `d` for the variable at position `v` agrees with every variable already
bound. -/
def consistent (p : Problem ι δ) (sel : Selection) (v : Nat) (d : δ) : Bool :=
  (p.constraintsOn v).all (fun c => p.constraints[c]?.all (·.allows (p.value sel) v d)) &&
  (p.groupsOf v).all fun g =>
    (p.groups[g]?.getD []).all fun other => other = v || p.value sel other ≠ some d

/-- The positions in the domain of the variable at position `v` whose values are consistent. -/
def candidates (p : Problem ι δ) (sel : Selection) (v : Nat) : List Nat :=
  (p.domain v).zipIdx.filterMap fun (d, i) => if p.consistent sel v d then some i else none

/-! ## The next variable -/

/-- Goes on looking for the variable with the fewest candidates, `best` being the best one so
far. -/
def selectFrom (p : Problem ι δ) (sel : Selection) (best : Option (Nat × List Nat)) :
    List Nat → Option (Nat × List Nat)
  | [] => best
  | v :: vs =>
    let cs := p.candidates sel v
    if cs.isEmpty then some (v, cs)
    else if best.all fun b => cs.length < b.2.length then p.selectFrom sel (some (v, cs)) vs
    else p.selectFrom sel best vs

/-- The open variable with the fewest candidates, with these candidates; none if no variable is
open. -/
def select (p : Problem ι δ) (sel : Selection) : Option (Nat × List Nat) :=
  p.selectFrom sel none (p.openVariables sel)

theorem mem_of_selectFrom {p : Problem ι δ} {sel : Selection} {best : Option (Nat × List Nat)}
    {vs : List Nat} {v : Nat} {cs : List Nat} (h : p.selectFrom sel best vs = some (v, cs)) :
    v ∈ vs ∨ best = some (v, cs) := by
  induction vs generalizing best with
  | nil => exact .inr h
  | cons w vs ih =>
    simp only [selectFrom] at h
    split at h
    · cases h
      exact .inl List.mem_cons_self
    · split at h
      · rcases ih h with h | h
        · exact .inl (List.mem_cons_of_mem w h)
        · cases h
          exact .inl List.mem_cons_self
      · exact (ih h).imp (List.mem_cons_of_mem w) id

theorem mem_openVariables_of_select {p : Problem ι δ} {sel : Selection} {v : Nat} {cs : List Nat}
    (h : p.select sel = some (v, cs)) : v ∈ p.openVariables sel := by
  simpa using mem_of_selectFrom h

/-! ## The search -/

/-- Binding an open variable leaves fewer variables unbound. -/
theorem countP_isNone_set_lt {p : Problem ι δ} {sel : Selection} {v i : Nat} {cs : List Nat}
    (h : p.select sel = some (v, cs)) :
    (sel.set v (some i)).countP Option.isNone < sel.countP Option.isNone := by
  have hmem := mem_openVariables_of_select h
  simp only [openVariables, List.mem_filter, Bool.and_eq_true, decide_eq_true_eq] at hmem
  obtain ⟨hlt, hnone⟩ := List.getElem?_eq_some_iff.mp hmem.2.1
  rw [List.countP_set hlt, hnone]
  have : 0 < sel.countP Option.isNone :=
    List.countP_pos_iff.mpr ⟨none, List.mem_of_getElem hnone, rfl⟩
  simp only [Option.isNone_none, Option.isNone_some, if_true, Bool.false_eq_true, if_false]
  omega

/-- The selections reached from `sel` in which no variable is open, in the order of the search. -/
def search (p : Problem ι δ) (sel : Selection) : List Selection :=
  match h : p.select sel with
  | none => [sel]
  | some (v, cs) => cs.flatMap fun i =>
    have := countP_isNone_set_lt (i := i) h
    p.search (sel.set v (some i))
termination_by sel.countP Option.isNone

/-- The first selection the search reaches in which no variable is open. -/
def searchFirst (p : Problem ι δ) (sel : Selection) : Option Selection :=
  match h : p.select sel with
  | none => some sel
  | some (v, cs) => cs.findSome? fun i =>
    have := countP_isNone_set_lt (i := i) h
    p.searchFirst (sel.set v (some i))
termination_by sel.countP Option.isNone

/-! ## Solutions -/

omit [DecidableEq δ] in
/-- Every selection with the variable at position `v` bound to each value of its domain in turn. -/
def multiplyIn (p : Problem ι δ) (sels : List Selection) (v : Nat) : List Selection :=
  sels.flatMap fun sel => (List.range (p.domain v).length).map fun i => sel.set v (some i)

omit [DecidableEq δ] in
/-- The selection with the variable at position `v` bound to the first value of its domain. -/
def bindFirst (p : Problem ι δ) (sel : Selection) (v : Nat) : Option Selection :=
  if (p.domain v).isEmpty then none else some (sel.set v (some 0))

/-- The complete selections that satisfy the problem. -/
def solutions (p : Problem ι δ) : List Selection :=
  p.isolated.foldl p.multiplyIn (p.search p.nothingBound)

/-- The first complete selection that satisfies the problem. -/
def firstSolution (p : Problem ι δ) : Option Selection :=
  (p.searchFirst p.nothingBound).bind fun sel => p.isolated.foldlM p.bindFirst sel

/-- All satisfying assignments. -/
def solveAll (p : Problem ι δ) : List (Assignment ι δ) := p.solutions.map p.assignment

/-- The first satisfying assignment, if there is one. -/
def solveOne (p : Problem ι δ) : Option (Assignment ι δ) := p.firstSolution.map p.assignment

end Problem

end GraphHom
