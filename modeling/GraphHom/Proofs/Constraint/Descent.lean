import GraphHom.Proofs.Constraint.First

/-!
# Descents

Both ways of solving a problem can be had from one recursion over a single selection. A descent binds
the selected variable to one candidate after the other, goes further down each time, and takes the
binding back before it returns. At the bottom it shows the selection to a visitor, which hands on what it
has gathered and says whether to go on (`ForInStep.yield`) or to break off (`ForInStep.done`); a broken
off descent leaves all its levels at once.

A descent gives back the selection it was given, and it shows the visitor what the search lists, in this
order, up to the selection on which the visitor breaks off (`Problem.descend_eq`). So a visitor that
gathers everything has all solutions, and one that breaks off at once has the first
(`Problem.solutions_eq_descend`, `Problem.firstSolution_eq_descend`).
-/

namespace GraphHom

variable {ι δ β : Type}

/-- Shows a visitor one selection after the other until it breaks off. -/
def showAll (visit : Selection → β → ForInStep β) : List Selection → β → ForInStep β
  | [], b => .yield b
  | sel :: sels, b =>
    match visit sel b with
    | .done b => .done b
    | .yield b => showAll visit sels b

theorem showAll_append {visit : Selection → β → ForInStep β} {sels sels' : List Selection} {b : β} :
    showAll visit (sels ++ sels') b =
      match showAll visit sels b with
      | .done b => .done b
      | .yield b => showAll visit sels' b := by
  induction sels generalizing b with
  | nil => rfl
  | cons sel sels ih =>
    rw [List.cons_append, showAll, showAll]
    cases visit sel b with
    | done b' => rfl
    | yield b' => exact ih

/-- Binds the variable at position `v` to one candidate after the other and goes further down each time;
the variable is unbound again in the end, also if the descent is broken off. -/
def bindEach (descend : Selection → β → Selection × ForInStep β) (v : Nat) :
    List Nat → Selection → β → Selection × ForInStep β
  | [], sel, b => (sel.set v none, .yield b)
  | i :: is, sel, b =>
    match descend (sel.set v (some i)) b with
    | (sel, .done b) => (sel.set v none, .done b)
    | (sel, .yield b) => bindEach descend v is sel b

namespace Problem

variable [DecidableEq δ]

/-- Goes down from a selection, at most `depth` levels; what is gathered comes with the selection as the
descent leaves it. -/
def descend (p : Problem ι δ) (visit : Selection → β → ForInStep β) :
    Nat → Selection → β → Selection × ForInStep β
  | 0, sel, b => (sel, .yield b)
  | depth + 1, sel, b =>
    match p.select sel with
    | none => (sel, visit sel b)
    | some (v, cs) => bindEach (p.descend visit depth) v cs sel b

variable {p : Problem ι δ} {visit : Selection → β → ForInStep β} {sel sel' : Selection}
variable {v depth : Nat} {cs : List Nat} {b : β}

/-! ## One level -/

/-- A selected variable is not bound. -/
theorem getElem?_of_select (h : p.select sel = some (v, cs)) : sel[v]? = some none := by
  have hmem := mem_openVariables_of_select h
  simp only [openVariables, List.mem_filter, Bool.and_eq_true, decide_eq_true_eq] at hmem
  exact hmem.2.1

theorem set_none_eq_self (h : sel[v]? = some none) : sel.set v none = sel := by
  obtain ⟨hlt, hnone⟩ := List.getElem?_eq_some_iff.mp h
  have hset : sel.set v sel[v] = sel := List.set_getElem_self hlt
  rwa [hnone] at hset

omit [DecidableEq δ] in
/-- If the levels below show what a search lists and give their selections back, this level shows what
is listed below all candidates, and gives its own selection back. -/
theorem bindEach_eq {below : Selection → β → Selection × ForInStep β}
    {listed : Selection → List Selection}
    (hbelow : ∀ i b, below (sel.set v (some i)) b =
      (sel.set v (some i), showAll visit (listed (sel.set v (some i))) b))
    (hopen : sel[v]? = some none)
    (hsel' : sel' = sel ∨ ∃ j, sel' = sel.set v (some j)) :
    bindEach below v cs sel' b =
      (sel, showAll visit (cs.flatMap fun i => listed (sel.set v (some i))) b) := by
  -- whichever candidate has been tried last, its binding is overwritten
  have hset : ∀ x : Option Nat, sel'.set v x = sel.set v x := by
    rcases hsel' with rfl | ⟨j, rfl⟩
    · exact fun _ => rfl
    · exact fun x => List.set_set _
  induction cs generalizing sel' b with
  | nil => rw [bindEach, hset, set_none_eq_self hopen, List.flatMap_nil, showAll]
  | cons i cs ih =>
    rw [bindEach, hset, hbelow, List.flatMap_cons, showAll_append]
    cases showAll visit (listed (sel.set v (some i))) b with
    | done b' =>
      show ((sel.set v (some i)).set v none, _) = _
      rw [List.set_set, set_none_eq_self hopen]
    | yield b' => exact ih (.inr ⟨i, rfl⟩) fun x => List.set_set _

/-! ## The whole descent -/

/-- **A descent shows what the search lists**, in its order and up to the selection on which the visitor
breaks off, and gives back the selection it was given. -/
theorem descend_eq (hdepth : sel.countP Option.isNone < depth) :
    p.descend visit depth sel b = (sel, showAll visit (p.search sel) b) := by
  induction depth generalizing sel b with
  | zero => exact absurd hdepth (Nat.not_lt_zero _)
  | succ depth ih =>
    rw [descend]
    cases hselect : p.select sel with
    | none =>
      rw [search_of_select_eq_none hselect, showAll]
      show (sel, visit sel b) = _
      cases visit sel b with
      | done b' => rfl
      | yield b' => rfl
    | some selected =>
      obtain ⟨v, cs⟩ := selected
      rw [search_of_select_eq_some hselect]
      refine bindEach_eq (fun i b => ih ?_) (getElem?_of_select hselect) (.inl rfl)
      have hlt : (sel.set v (some i)).countP Option.isNone < sel.countP Option.isNone :=
        countP_isNone_set_lt hselect
      omega

/-- A descent from the selection that binds nothing needs one level for every variable, and the bottom. -/
theorem descend_nothingBound (hdepth : p.vars.length < depth) :
    p.descend visit depth p.nothingBound b =
      (p.nothingBound, showAll visit (p.search p.nothingBound) b) := by
  refine descend_eq (Nat.lt_of_le_of_lt List.countP_le_length ?_)
  rwa [nothingBound, List.length_replicate]

/-! ## Two visitors -/

/-- Gathers all selections it is shown. -/
def gather (sel : Selection) (sels : List Selection) : ForInStep (List Selection) := .yield (sels ++ [sel])

/-- Keeps the selection it is shown and breaks off. -/
def keepFirst (sel : Selection) (_ : Option Selection) : ForInStep (Option Selection) := .done (some sel)

theorem showAll_gather {sels gathered : List Selection} :
    showAll gather sels gathered = .yield (gathered ++ sels) := by
  induction sels generalizing gathered with
  | nil => rw [showAll, List.append_nil]
  | cons sel sels ih =>
    show showAll gather sels (gathered ++ [sel]) = _
    rw [ih, List.append_assoc, List.singleton_append]

theorem showAll_keepFirst {sels : List Selection} :
    (showAll keepFirst sels none).value = sels.head? := by
  cases sels with
  | nil => rfl
  | cons sel sels => rfl

/-- All solutions are what a descent gathers that is not broken off, with the isolated variables
multiplied in. -/
theorem solutions_eq_descend (hdepth : p.vars.length < depth) :
    p.solutions =
      p.isolated.foldl p.multiplyIn (p.descend gather depth p.nothingBound []).2.value := by
  rw [descend_nothingBound hdepth, showAll_gather]
  rfl

/-- The first solution is what a descent keeps that is broken off at once, with the isolated variables
bound to their first values. -/
theorem firstSolution_eq_descend (hdepth : p.vars.length < depth) :
    p.firstSolution = (p.descend keepFirst depth p.nothingBound none).2.value.bind
      fun sel => p.isolated.foldlM p.bindFirst sel := by
  rw [descend_nothingBound hdepth, showAll_keepFirst, head?_search]
  rfl

/-- **Looking for one assignment finds the first of all assignments**, and finds none exactly if there
are none. Either answer is had from a descent: the one from a descent that visits everything, with the
isolated variables multiplied in, the other from a descent that is broken off at the first selection it
shows, with the isolated variables bound one by one. -/
theorem solveOne_eq_head?_solveAll (p : Problem ι δ) :
    p.solveOne = p.solveAll.head? ∧ (p.solveOne = none ↔ p.solveAll = []) ∧
    p.solveAll = (p.isolated.foldl p.multiplyIn
      (p.descend gather (p.vars.length + 1) p.nothingBound []).2.value).map p.assignment ∧
    p.solveOne = ((p.descend keepFirst (p.vars.length + 1) p.nothingBound none).2.value.bind
      fun sel => p.isolated.foldlM p.bindFirst sel).map p.assignment := by
  have hhead : p.solveOne = p.solveAll.head? := by
    rw [solveOne, solveAll, List.head?_map, head?_solutions]
  refine ⟨hhead, ?_, ?_, ?_⟩
  · rw [hhead, List.head?_eq_none_iff]
  · rw [solveAll, solutions_eq_descend (Nat.lt_succ_self _)]
  · rw [solveOne, firstSolution_eq_descend (Nat.lt_succ_self _)]

end Problem

end GraphHom
