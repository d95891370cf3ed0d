import GraphHom.Proofs.Constraint.Search

/-!
# The first solution of a constraint problem

Looking for one solution is separate from looking for all of them: it leaves the search where the
first selection without open variables is met, and it binds the isolated variables one by one
instead of multiplying them in. It still finds what stands in front of all solutions, and nothing
exactly if there are none (`head?_solutions`):

* `head?_search` — the search stops at the first selection of those it would reach;
* `head?_foldl_multiplyIn` — multiplying variables in keeps the selection in front, with each of them
  bound to the first value of its domain, unless one of the domains is empty.
-/

namespace GraphHom

variable {ι δ : Type}

namespace Problem

/-! ## Isolated variables -/

section Isolated

variable {p : Problem ι δ} {sels : List Selection} {v : Nat} {vs : List Nat}

/-- Binding a variable in every way begins with the first value of its domain. -/
theorem head?_map_set {sel : Selection} :
    ((List.range (p.domain v).length).map fun i => sel.set v (some i)).head? = p.bindFirst sel v := by
  rw [List.head?_map, List.head?_range, bindFirst]
  cases p.domain v with
  | nil => rfl
  | cons d ds => rfl

/-- Multiplying a variable in keeps the selection in front, or leaves none at all. -/
theorem head?_multiplyIn : (p.multiplyIn sels v).head? = sels.head?.bind (p.bindFirst · v) := by
  have hfirst : (p.multiplyIn sels v).head? = sels.findSome? (p.bindFirst · v) := by
    rw [multiplyIn, List.head?_flatMap]
    simp only [head?_map_set]
  rw [hfirst]
  cases sels with
  | nil => rfl
  | cons sel sels =>
    -- whether there is a value does not depend on the selection
    cases hdom : (p.domain v).isEmpty with
    | true =>
      have hnone : ∀ s : Selection, p.bindFirst s v = none := fun s => if_pos hdom
      rw [List.findSome?_eq_none_iff.mpr fun s _ => hnone s]
      exact (hnone sel).symm
    | false =>
      have hsome : p.bindFirst sel v = some (sel.set v (some 0)) := if_neg (by simp [hdom])
      rw [List.findSome?_cons, List.head?_cons, Option.bind_some, hsome]

/-- Multiplying several variables in is, for the selection in front, binding them one by one. -/
theorem head?_foldl_multiplyIn :
    (vs.foldl p.multiplyIn sels).head? = sels.head?.bind fun sel => vs.foldlM p.bindFirst sel := by
  induction vs generalizing sels with
  | nil =>
    show sels.head? = sels.head?.bind some
    rw [Option.bind_fun_some]
  | cons v vs ih =>
    calc ((v :: vs).foldl p.multiplyIn sels).head?
        = (p.multiplyIn sels v).head?.bind fun sel => vs.foldlM p.bindFirst sel := ih
      _ = (sels.head?.bind (p.bindFirst · v)).bind fun sel => vs.foldlM p.bindFirst sel := by
          rw [head?_multiplyIn]
      _ = sels.head?.bind fun sel => (v :: vs).foldlM p.bindFirst sel := Option.bind_assoc ..

end Isolated

/-! ## The search -/

section Search

variable [DecidableEq δ] {p : Problem ι δ} {sel : Selection} {v : Nat} {cs : List Nat}

theorem searchFirst_of_select_eq_none (h : p.select sel = none) : p.searchFirst sel = some sel := by
  rw [searchFirst]
  split
  · rfl
  · rename_i hsome
    rw [h] at hsome
    cases hsome

theorem searchFirst_of_select_eq_some (h : p.select sel = some (v, cs)) :
    p.searchFirst sel = cs.findSome? fun i => p.searchFirst (sel.set v (some i)) := by
  rw [searchFirst]
  split
  · rename_i hnone
    rw [h] at hnone
    cases hnone
  · rename_i hsome
    rw [h] at hsome
    cases hsome
    rfl

/-- **The search for one selection stops at the first of all.** A branch without one is left, however
deep it went, and the next candidate is tried. -/
theorem head?_search : (p.search sel).head? = p.searchFirst sel := by
  induction sel using search.induct p with
  | case1 sel hnone =>
    rw [search_of_select_eq_none hnone, searchFirst_of_select_eq_none hnone, List.head?_cons]
  | case2 sel v cs hsome ih =>
    have hbranches : (fun i => (p.search (sel.set v (some i))).head?) =
        fun i => p.searchFirst (sel.set v (some i)) := funext ih
    rw [search_of_select_eq_some hsome, searchFirst_of_select_eq_some hsome, List.head?_flatMap,
      hbranches]

/-- **The first solution is the first of all solutions.** -/
theorem head?_solutions (p : Problem ι δ) : p.solutions.head? = p.firstSolution := by
  rw [solutions, firstSolution, head?_foldl_multiplyIn, head?_search]

end Search

end Problem

end GraphHom
