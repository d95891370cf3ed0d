import GraphHom.Proofs.Constraint.Solutions

/-!
# Rearranging what is added

The order in which constraints and groups are added is the order of the lists and the indexes of a
problem. The search follows none of it: it sees a constraint or a group only through the values it
forbids. Two lists of additions that ask for the same things, in any order and however often, therefore
make problems on which every selection has the same candidates, and the search takes the same way
through them.

* `Problem.within_of_records` — what is within what is added is within what is held;
* `Problem.select_congr` — **the step**: the same variable is chosen at every selection, with the same
  candidates;
* `Problem.search_congr` — **the run**: the same selections are reached, in the same order.
-/

namespace GraphHom

variable {ι δ : Type}

/-! ## Asking for the same -/

/-- Two additions ask for the same: they are one constraint, or groups with the same members. -/
def Addition.Same : Addition ι δ → Addition ι δ → Prop
  | .constraint c, .constraint c' => c = c'
  | .allDistinct ids, .allDistinct ids' => ∀ x, x ∈ ids ↔ x ∈ ids'
  | _, _ => False

theorem Addition.Same.mem_ids_iff {a b : Addition ι δ} (h : a.Same b) (x : ι) :
    x ∈ a.ids ↔ x ∈ b.ids := by
  match a, b, h with
  | .constraint c, .constraint _, rfl => rfl
  | .allDistinct ids, .allDistinct ids', h => exact h x

/-- Whatever `as` asks for, `bs` asks for as well. -/
def Addition.AllWithin (as bs : List (Addition ι δ)) : Prop := ∀ a ∈ as, ∃ b ∈ bs, a.Same b

namespace Problem

variable {p q : Problem ι δ} {sel : Selection} {v : Nat} {vs : List Nat}

/-! ## Problems within problems -/

/-- Whatever `p` holds of its variables, `q` holds of them as well. -/
structure Within (p q : Problem ι δ) : Prop where
  /-- The variables are the same. -/
  vars_eq : p.vars = q.vars
  /-- A constraint of the one is one of the other. -/
  mem_constraints : ∀ c ∈ p.constraints, c ∈ q.constraints
  /-- To a group of the one there is one of the other with the same members. -/
  exists_group : ∀ g ∈ p.groups, ∃ g' ∈ q.groups, ∀ u, u ∈ g ↔ u ∈ g'

theorem Within.domain_eq (h : p.Within q) : p.domain = q.domain := by
  funext v
  unfold domain
  rw [h.vars_eq]

theorem Within.value_eq (h : p.Within q) : p.value = q.value := by
  funext sel v
  unfold value
  rw [h.domain_eq]

theorem Within.assignment_eq (h : p.Within q) : p.assignment = q.assignment := by
  funext sel
  unfold assignment
  rw [h.vars_eq, h.value_eq]

theorem Within.multiplyIn_eq (h : p.Within q) : p.multiplyIn = q.multiplyIn := by
  funext sels v
  unfold multiplyIn
  rw [h.domain_eq]

/-- A variable that something of the one problem is about takes part in the other. -/
theorem Within.isIsolated_of_isIsolated (h : p.Within q) (hp : p.Indexed) (hq : q.Indexed)
    (hv : v < p.vars.length) (hiso : q.isIsolated v = true) : p.isIsolated v = true := by
  obtain ⟨hconstraints, hgroups⟩ := (isIsolated_eq_true_iff hq (h.vars_eq ▸ hv)).mp hiso
  refine (isIsolated_eq_true_iff hp hv).mpr ⟨fun c hc => ?_, fun g hg hvg => ?_⟩
  · exact hconstraints c (h.mem_constraints c hc)
  · obtain ⟨g', hg', hmem⟩ := h.exists_group g hg
    exact hgroups g' hg' ((hmem v).mp hvg)

/-- A value that violates nothing of the larger problem violates nothing of the smaller one. -/
theorem Within.consistent_of_consistent [DecidableEq δ] (h : p.Within q) (hp : p.Indexed)
    (hq : q.Indexed) (hv : v < p.vars.length) {d : δ} (hcon : q.consistent sel v d = true) :
    p.consistent sel v d = true := by
  obtain ⟨hconstraints, hgroups⟩ := (consistent_iff hq (h.vars_eq ▸ hv)).mp hcon
  rw [← h.value_eq] at hconstraints hgroups
  refine (consistent_iff hp hv).mpr ⟨fun c hc => ?_, fun g hg hvg u hu => ?_⟩
  · exact hconstraints c (h.mem_constraints c hc)
  · obtain ⟨g', hg', hmem⟩ := h.exists_group g hg
    exact hgroups g' hg' ((hmem v).mp hvg) u ((hmem u).mp hu)

/-! ## From what is added to what is held -/

section Additions

variable [DecidableEq ι] {vars : List (Variable ι δ)} {as bs : List (Addition ι δ)}

theorem position_congr (h : p.vars = q.vars) : p.position = q.position := by
  funext x
  unfold position
  rw [h]

/-- The positions of a group are those of its members. -/
theorem mem_iff_of_mapM_position {ids : List ι} {g : List Nat} (h : ids.mapM p.position = .ok g) :
    v ∈ g ↔ ∃ x ∈ ids, p.position x = .ok v := by
  constructor
  · exact exists_mem_of_mapM_right h
  · rintro ⟨x, hx, hv⟩
    obtain ⟨w, hw, hpos⟩ := exists_mem_of_mapM_left h hx
    rw [hv] at hpos
    cases hpos
    exact hw

theorem within_of_records (hp : p.Records vars as) (hq : q.Records vars bs)
    (hab : Addition.AllWithin as bs) : p.Within q := by
  have hvars : p.vars = q.vars := hp.vars_eq.trans hq.vars_eq.symm
  have hposition : p.position = q.position := position_congr hvars
  refine ⟨hvars, fun c hc => ?_, fun g hg => ?_⟩
  · -- the same constraint, found at the same positions
    obtain ⟨hmem, hl, hr⟩ := hp.of_mem_constraints c hc
    obtain ⟨b, hb, hsame⟩ := hab _ hmem
    cases b with
    | allDistinct ids => cases hsame
    | constraint c₀ =>
      cases hsame
      obtain ⟨c', hc', heq⟩ := hq.exists_placed _ hb
      obtain ⟨-, hl', hr'⟩ := hq.of_mem_constraints c' hc'
      rw [heq, ← hposition] at hl' hr'
      rw [hl] at hl'
      rw [hr] at hr'
      cases c
      cases c'
      cases heq
      cases hl'
      cases hr'
      exact hc'
  · obtain ⟨ids, hmem, hg⟩ := hp.of_mem_groups g hg
    obtain ⟨b, hb, hsame⟩ := hab _ hmem
    cases b with
    | constraint c => cases hsame
    | allDistinct ids' =>
      obtain ⟨g', hg', hpos⟩ := hq.exists_group ids' hb
      refine ⟨g', hg', fun u => ?_⟩
      rw [mem_iff_of_mapM_position hg, mem_iff_of_mapM_position hpos, ← hposition]
      exact exists_congr fun x => and_congr_left' (hsame x)

/-- The variables that the additions of a problem name are declared. -/
theorem Records.exists_of_mem_ids (hp : p.Records vars as) {a : Addition ι δ} (ha : a ∈ as) {x : ι}
    (hx : x ∈ a.ids) : ∃ y ∈ vars, y.id = x := by
  have hposition : ∃ v, p.position x = .ok v := by
    cases a with
    | constraint c =>
      obtain ⟨pc, hpc, rfl⟩ := hp.exists_placed c ha
      obtain ⟨-, hl, hr⟩ := hp.of_mem_constraints pc hpc
      rcases List.mem_cons.mp hx with rfl | hx
      · exact ⟨_, hl⟩
      · cases List.mem_singleton.mp hx
        exact ⟨_, hr⟩
    | allDistinct ids =>
      obtain ⟨g, -, hpos⟩ := hp.exists_group ids ha
      obtain ⟨v, -, hv⟩ := exists_mem_of_mapM_left hpos hx
      exact ⟨v, hv⟩
  obtain ⟨v, hv⟩ := hposition
  obtain ⟨y, hy, hid⟩ := getElem?_of_position hv
  exact ⟨y, hp.vars_eq ▸ List.mem_of_getElem? hy, hid⟩

/-- Additions that ask for nothing but what has been added can be made. -/
theorem exists_build_of_allWithin (h : build vars as = .ok p) (hba : Addition.AllWithin bs as) :
    ∃ q, build vars bs = .ok q := by
  obtain ⟨-, hrecords⟩ := build_invariant h
  refine exists_build hrecords.ids_ne fun b hb x hx => ?_
  obtain ⟨a, ha, hsame⟩ := hba b hb
  exact hrecords.exists_of_mem_ids ha ((hsame.mem_ids_iff x).mp hx)

end Additions

/-! ## Two problems, each within the other -/

section Congr

variable (hp : p.Indexed) (hq : q.Indexed) (hpq : p.Within q) (hqp : q.Within p)

include hp hq hpq hqp

theorem isIsolated_congr (hv : v < p.vars.length) : p.isIsolated v = q.isIsolated v :=
  Bool.eq_iff_iff.mpr ⟨hqp.isIsolated_of_isIsolated hq hp (hpq.vars_eq ▸ hv),
    hpq.isIsolated_of_isIsolated hp hq hv⟩

theorem isolated_congr : p.isolated = q.isolated := by
  unfold isolated
  rw [← hpq.vars_eq]
  exact List.filter_congr fun v hv => isIsolated_congr hp hq hpq hqp (List.mem_range.mp hv)

theorem openVariables_congr : p.openVariables sel = q.openVariables sel := by
  unfold openVariables
  rw [← hpq.vars_eq]
  refine List.filter_congr fun v hv => ?_
  rw [isIsolated_congr hp hq hpq hqp (List.mem_range.mp hv)]

variable [DecidableEq δ]

theorem candidates_congr (hv : v < p.vars.length) : p.candidates sel v = q.candidates sel v := by
  have hconsistent : p.consistent sel v = q.consistent sel v := by
    funext d
    exact Bool.eq_iff_iff.mpr ⟨hqp.consistent_of_consistent hq hp (hpq.vars_eq ▸ hv),
      hpq.consistent_of_consistent hp hq hv⟩
  unfold candidates
  rw [hpq.domain_eq, hconsistent]

theorem selectFrom_congr {best : Option (Nat × List Nat)} (hvs : ∀ v ∈ vs, v < p.vars.length) :
    p.selectFrom sel best vs = q.selectFrom sel best vs := by
  induction vs generalizing best with
  | nil => rfl
  | cons v vs ih =>
    have hrest : ∀ w ∈ vs, w < p.vars.length := fun w hw => hvs w (List.mem_cons_of_mem v hw)
    simp only [selectFrom]
    rw [candidates_congr hp hq hpq hqp (hvs v List.mem_cons_self), ih hrest, ih hrest]

/-- **The step.** Whatever is bound, the same variable is chosen, with the same candidates. -/
theorem select_congr : p.select sel = q.select sel := by
  unfold select
  rw [← openVariables_congr hp hq hpq hqp]
  exact selectFrom_congr hp hq hpq hqp fun v hv => (mem_openVariables_iff.mp hv).1

/-- **The run.** The search reaches the same selections in the same order. -/
theorem search_congr : p.search sel = q.search sel := by
  induction sel using search.induct p with
  | case1 sel hnone =>
    rw [search_of_select_eq_none hnone,
      search_of_select_eq_none ((select_congr hp hq hpq hqp).symm.trans hnone)]
  | case2 sel v cs hsome ih =>
    rw [search_of_select_eq_some hsome,
      search_of_select_eq_some ((select_congr hp hq hpq hqp).symm.trans hsome)]
    exact congrArg cs.flatMap (funext fun i => ih i)

theorem solveAll_congr : p.solveAll = q.solveAll := by
  have hstart : p.nothingBound = q.nothingBound := by
    unfold nothingBound
    rw [hpq.vars_eq]
  unfold solveAll solutions
  rw [isolated_congr hp hq hpq hqp, hpq.multiplyIn_eq, hstart, search_congr hp hq hpq hqp,
    hpq.assignment_eq]

end Congr

variable [DecidableEq ι] [DecidableEq δ] {vars : List (Variable ι δ)} {as bs : List (Addition ι δ)}

/-- **The order and the number of additions do not matter.** Two lists of additions that ask for the same
constraints and, up to order and repetition of their members, for the same groups, make problems with the
same assignments in the same order; and if one of them makes a problem, so does the other. -/
theorem solveAll_of_allWithin (h : build vars as = .ok p) (hab : Addition.AllWithin as bs)
    (hba : Addition.AllWithin bs as) :
    (∃ q, build vars bs = .ok q) ∧ ∀ q, build vars bs = .ok q → q.solveAll = p.solveAll := by
  refine ⟨exists_build_of_allWithin h hba, fun q hq => ?_⟩
  obtain ⟨hpi, hpr⟩ := build_invariant h
  obtain ⟨hqi, hqr⟩ := build_invariant hq
  exact solveAll_congr hqi hpi (within_of_records hqr hpr hba) (within_of_records hpr hqr hab)

/-- The group is added first, with a member listed twice, and everything is added once more. -/
theorem solveAll_of_allWithin_repeated :
    ∃ p q : Problem Char Nat,
      build [⟨'x', [1, 2]⟩, ⟨'y', [1, 2]⟩, ⟨'z', [1, 2]⟩]
        [.constraint ⟨'x', 'y', fun a b => a < b⟩, .allDistinct ['x', 'z']] = .ok p ∧
      build [⟨'x', [1, 2]⟩, ⟨'y', [1, 2]⟩, ⟨'z', [1, 2]⟩]
        [.allDistinct ['z', 'x', 'z'], .constraint ⟨'x', 'y', fun a b => a < b⟩,
          .allDistinct ['x', 'z'], .constraint ⟨'x', 'y', fun a b => a < b⟩] = .ok q ∧
      p.groupsOf 2 = [0] ∧ q.groupsOf 2 = [0, 0, 1] ∧
      p.solveAll = [[('x', 1), ('y', 2), ('z', 2)]] ∧ q.solveAll = p.solveAll := by
  have hbuild : ∃ p : Problem Char Nat,
      build [⟨'x', [1, 2]⟩, ⟨'y', [1, 2]⟩, ⟨'z', [1, 2]⟩]
        [.constraint ⟨'x', 'y', fun a b => a < b⟩, .allDistinct ['x', 'z']] = .ok p ∧
      p.groupsOf 2 = [0] ∧ p.solveAll = [[('x', 1), ('y', 2), ('z', 2)]] := by
    refine ⟨_, rfl, rfl, ?_⟩
    -- the first variable has two values to try, and leaves the second one or none
    have hsearch : ∀ r : Problem Char Nat, r.select [none, none, none] = some (0, [0, 1]) →
        r.select [some 0, none, none] = some (1, [1]) →
        r.select [some 0, some 1, none] = some (2, [1]) →
        r.select [some 0, some 1, some 1] = none → r.select [some 1, none, none] = some (1, []) →
        r.search [none, none, none] = [[some 0, some 1, some 1]] := by
      intro r h h₀ h₁ h₂ h₃
      rw [search_of_select_eq_some h]
      simp [search_of_select_eq_some h₀, search_of_select_eq_some h₁, search_of_select_eq_none h₂,
        search_of_select_eq_some h₃]
    exact congrArg (List.map (assignment _)) (hsearch _ rfl rfl rfl rfl rfl)
  have hgroups : ∃ q : Problem Char Nat,
      build [⟨'x', [1, 2]⟩, ⟨'y', [1, 2]⟩, ⟨'z', [1, 2]⟩]
        [.allDistinct ['z', 'x', 'z'], .constraint ⟨'x', 'y', fun a b => a < b⟩,
          .allDistinct ['x', 'z'], .constraint ⟨'x', 'y', fun a b => a < b⟩] = .ok q ∧
      q.groupsOf 2 = [0, 0, 1] := ⟨_, rfl, rfl⟩
  obtain ⟨p, hp, hpgroups, hpsols⟩ := hbuild
  obtain ⟨q, hq, hqgroups⟩ := hgroups
  have heq : q.solveAll = p.solveAll :=
    (solveAll_of_allWithin hp (by simp [Addition.AllWithin, Addition.Same])
      (by simp [Addition.AllWithin, Addition.Same])).2 q hq
  exact ⟨p, q, hp, hq, hpgroups, hqgroups, hpsols, heq⟩

end Problem

end GraphHom
