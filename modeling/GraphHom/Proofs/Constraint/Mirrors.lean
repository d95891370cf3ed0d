import GraphHom.Proofs.Constraint.Calls
import GraphHom.Proofs.Constraint.Selecting

/-!
# What the indexes of a problem list

`Problem.Mirrors` says what a problem holds, and what its two indexes and its list of isolated variables
show, in terms of the identifiers that were named when something was added: the entry of a variable lists
the constraints that name it, each once, and the groups that name it, each as often as it does, in the
order in which they were added; the isolated variables are those that nothing names.

* `Problem.mirrors_of_build` — every problem that is built mirrors what was added;
* `Problem.afterCalls_mirrors` — after any calls, refused ones among them, a problem mirrors those that
  were not refused.
-/

namespace GraphHom

variable {ι δ : Type}

/-- The constraint that an addition adds. -/
def Addition.constraint? : Addition ι δ → Option (Constraint ι δ)
  | .constraint c => some c
  | .allDistinct _ => none

/-- The members of the group that an addition adds. -/
def Addition.members? : Addition ι δ → Option (List ι)
  | .constraint _ => none
  | .allDistinct ids => some ids

namespace Problem

variable [DecidableEq ι] {p q : Problem ι δ} {vars : List (Variable ι δ)} {x : ι} {v n : Nat}

/-! ## The order of what is held -/

/-- A problem holds the constraints and groups that were added in the order in which they were added. -/
structure InOrder (p : Problem ι δ) (made : List (Addition ι δ)) : Prop where
  /-- The constraints are the added ones. -/
  constraints_eq : p.constraints.map (·.constraint) = made.filterMap Addition.constraint?
  /-- The groups are the added ones, as positions. -/
  forall₂_groups : List.Forall₂ (fun ids g => ids.mapM p.position = .ok g)
    (made.filterMap Addition.members?) p.groups

theorem ofVariables_inOrder (h : ofVariables vars = .ok p) : p.InOrder [] := by
  obtain ⟨-, rfl⟩ := ofVariables_eq_ok_iff.mp h
  exact ⟨rfl, .nil⟩

theorem add_inOrder {made : List (Addition ι δ)} {a : Addition ι δ} (hp : p.InOrder made)
    (h : p.add a = .ok q) : q.InOrder (made ++ [a]) := by
  cases a with
  | constraint c =>
    obtain ⟨l, r, -, -, rfl⟩ := addConstraint_eq_ok_iff.mp h
    refine ⟨?_, ?_⟩
    · show (p.constraints ++ [(⟨c, l, r⟩ : PlacedConstraint ι δ)]).map _ = _
      rw [List.map_append, hp.constraints_eq, List.filterMap_append]
      rfl
    · rw [List.filterMap_append]
      show List.Forall₂ _ (_ ++ []) p.groups
      rw [List.append_nil]
      exact hp.forall₂_groups
  | allDistinct ids =>
    obtain ⟨members, hm, rfl⟩ := addAllDistinct_eq_ok_iff.mp h
    refine ⟨?_, ?_⟩
    · rw [List.filterMap_append]
      show p.constraints.map _ = _ ++ []
      rw [List.append_nil]
      exact hp.constraints_eq
    · rw [List.filterMap_append]
      exact List.rel_append hp.forall₂_groups (.cons hm .nil)

theorem build_inOrder {made : List (Addition ι δ)} (h : build vars made = .ok p) : p.InOrder made := by
  obtain ⟨q, hq, h⟩ := bind_eq_ok_iff.mp h
  have hchain := foldlM_induction (f := add) (motive := fun done (p : Problem ι δ) => p.InOrder done)
    fun done a b c hb hc => add_inOrder hb hc
  exact hchain made [] q p (ofVariables_inOrder hq) h

/-! ## What a problem holds -/

/-- The variable at position `v` is `x`. -/
def IsAt (vars : List (Variable ι δ)) (x : ι) (v : Nat) : Prop := ∃ y, vars[v]? = some y ∧ y.id = x

/-- What a problem holds after some additions, and what its indexes list, in terms of the identifiers that
the additions name. -/
structure Mirrors (p : Problem ι δ) (vars : List (Variable ι δ)) (made : List (Addition ι δ)) :
    Prop where
  /-- The variables are those declared. -/
  vars_eq : p.vars = vars
  /-- The constraints are the added ones in their order. -/
  constraints_eq : p.constraints.map (·.constraint) = made.filterMap Addition.constraint?
  /-- A constraint carries the positions of its variables. -/
  isAt_of_mem : ∀ c ∈ p.constraints,
    IsAt vars c.constraint.lhs c.lhsAt ∧ IsAt vars c.constraint.rhs c.rhsAt
  /-- The groups are the added ones in their order, each with the positions of its members in order. -/
  forall₂_groups : List.Forall₂ (List.Forall₂ (IsAt vars)) (made.filterMap Addition.members?) p.groups
  /-- The index of the constraints has an entry for every variable. -/
  length_constraintIndex : p.constraintIndex.length = vars.length
  /-- The index of the groups has an entry for every variable. -/
  length_groupIndex : p.groupIndex.length = vars.length
  /-- The constraints on a variable are listed in ascending order, each of them once. -/
  pairwise_constraintsOn : ∀ v, (p.constraintsOn v).Pairwise (· < ·)
  /-- They are those with the variable on one side or both. -/
  mem_constraintsOn_iff : ∀ v x, IsAt vars x v → ∀ n, n ∈ p.constraintsOn v ↔
    ∃ c, p.constraints[n]? = some c ∧ (c.constraint.lhs = x ∨ c.constraint.rhs = x)
  /-- The groups of a variable are listed in ascending order. -/
  pairwise_groupsOf : ∀ v, (p.groupsOf v).Pairwise (· ≤ ·)
  /-- They are those with the variable, each as often as it names the variable. -/
  count_groupsOf : ∀ v x, IsAt vars x v → ∀ n, (p.groupsOf v).count n =
    ((made.filterMap Addition.members?)[n]?.getD []).count x
  /-- The isolated variables are listed in ascending order, each of them once. -/
  pairwise_isolated : p.isolated.Pairwise (· < ·)
  /-- They are those that no addition names. -/
  mem_isolated_iff : ∀ v, v ∈ p.isolated ↔ ∃ x, IsAt vars x v ∧ ∀ a ∈ made, x ∉ a.ids

/-! ## From what was added to what is held -/

variable {made : List (Addition ι δ)}

theorem Records.position_eq_ok_iff (hp : p.Records vars made) :
    p.position x = .ok v ↔ IsAt vars x v := by
  constructor
  · intro h
    rw [← hp.vars_eq]
    exact getElem?_of_position h
  · rintro ⟨y, hy, rfl⟩
    have hids := hp.ids_ne
    rw [← hp.vars_eq] at hy hids
    exact position_of_getElem? hids hy

/-- There is one variable at a position, and one position of a variable. -/
theorem Records.eq_iff_eq (hp : p.Records vars made) {y : ι} {w : Nat} (hx : IsAt vars x v)
    (hy : IsAt vars y w) : x = y ↔ v = w := by
  constructor
  · rintro rfl
    rw [← hp.position_eq_ok_iff] at hx hy
    rw [hx] at hy
    exact Except.ok.inj hy
  · rintro rfl
    obtain ⟨z, hz, rfl⟩ := hx
    obtain ⟨z', hz', rfl⟩ := hy
    rw [hz] at hz'
    rw [Option.some.inj hz']

theorem Records.isAt_of_mem_constraints (hp : p.Records vars made) {c : PlacedConstraint ι δ}
    (hc : c ∈ p.constraints) :
    IsAt vars c.constraint.lhs c.lhsAt ∧ IsAt vars c.constraint.rhs c.rhsAt := by
  obtain ⟨-, hl, hr⟩ := hp.of_mem_constraints c hc
  exact ⟨hp.position_eq_ok_iff.mp hl, hp.position_eq_ok_iff.mp hr⟩

/-- A constraint stands at a variable if it names the variable. -/
theorem Records.side_iff (hp : p.Records vars made) {c : PlacedConstraint ι δ} (hc : c ∈ p.constraints)
    (hx : IsAt vars x v) :
    (c.lhsAt = v ∨ c.rhsAt = v) ↔ (c.constraint.lhs = x ∨ c.constraint.rhs = x) := by
  obtain ⟨hl, hr⟩ := hp.isAt_of_mem_constraints hc
  rw [hp.eq_iff_eq hl hx, hp.eq_iff_eq hr hx]

/-- The positions of a group list a variable as often as the group names it. -/
theorem Records.count_eq (hp : p.Records vars made) {ids : List ι} {g : List Nat}
    (hg : List.Forall₂ (IsAt vars) ids g) (hx : IsAt vars x v) : g.count v = ids.count x := by
  induction hg with
  | nil => rfl
  | cons hy _ ih =>
    rw [List.count_cons, List.count_cons, ih]
    congr 1
    simp only [beq_iff_eq, hp.eq_iff_eq hy hx]

theorem Records.count_getElem?_eq (hp : p.Records vars made) {l : List (List ι)} {gs : List (List Nat)}
    (hgs : List.Forall₂ (List.Forall₂ (IsAt vars)) l gs) (hx : IsAt vars x v) :
    (gs[n]?.getD []).count v = (l[n]?.getD []).count x := by
  induction hgs generalizing n with
  | nil => rfl
  | cons hg _ ih =>
    cases n with
    | zero => exact hp.count_eq hg hx
    | succ n => exact ih

theorem Records.forall₂_isAt (hp : p.Records vars made) {ids : List ι} {g : List Nat}
    (h : ids.mapM p.position = .ok g) : List.Forall₂ (IsAt vars) ids g :=
  (mapM_eq_ok_iff.mp h).imp fun _ _ hv => hp.position_eq_ok_iff.mp hv

/-- A variable takes part in something if some addition names it. -/
theorem Records.takesPart_iff (hp : p.Records vars made) (hx : IsAt vars x v) :
    p.TakesPart v ↔ ∃ a ∈ made, x ∈ a.ids := by
  have hcount : ∀ (ids : List ι) (g : List Nat), ids.mapM p.position = .ok g → (v ∈ g ↔ x ∈ ids) := by
    intro ids g hg
    rw [← List.count_pos_iff, ← List.count_pos_iff, hp.count_eq (hp.forall₂_isAt hg) hx]
  constructor
  · rintro (⟨c, hc, hside⟩ | ⟨g, hg, hvg⟩)
    · refine ⟨.constraint c.constraint, (hp.of_mem_constraints c hc).1, ?_⟩
      simpa [Addition.ids, eq_comm] using (hp.side_iff hc hx).mp hside
    · obtain ⟨ids, hmem, hpos⟩ := hp.of_mem_groups g hg
      exact ⟨.allDistinct ids, hmem, (hcount ids g hpos).mp hvg⟩
  · rintro ⟨a, ha, hxa⟩
    cases a with
    | constraint c =>
      obtain ⟨pc, hpc, rfl⟩ := hp.exists_placed c ha
      have hside : pc.constraint.lhs = x ∨ pc.constraint.rhs = x := by
        simpa [Addition.ids, eq_comm] using hxa
      exact .inl ⟨pc, hpc, (hp.side_iff hpc hx).mpr hside⟩
    | allDistinct ids =>
      obtain ⟨g, hg, hpos⟩ := hp.exists_group ids ha
      exact .inr ⟨g, hg, (hcount ids g hpos).mpr hxa⟩

/-! ## From what is held to what is listed -/

section Numbers

omit [DecidableEq ι]

theorem pairwise_constraintNumbers : (p.constraintNumbers v).Pairwise (· < ·) := by
  refine pairwise_filterMap_zipIdx fun x n hn => ?_
  obtain ⟨-, hn⟩ := Option.ite_none_right_eq_some.mp hn
  exact (Option.some.inj hn).symm

theorem pairwise_groupNumbers : (p.groupNumbers v).Pairwise (· ≤ ·) := by
  rw [groupNumbers, List.pairwise_flatMap]
  constructor
  · rintro ⟨g, n⟩ -
    exact List.pairwise_replicate.mpr (.inr (Nat.le_refl n))
  · refine pairwise_zipIdx.imp fun {a b} hab m hm n hn => ?_
    rw [(List.mem_replicate.mp hm).2, (List.mem_replicate.mp hn).2]
    exact Nat.le_of_lt hab

theorem count_flatMap_zipIdx {gs : List (List Nat)} {k : Nat} :
    ((gs.zipIdx k).flatMap fun (g, m) => List.replicate (g.count v) m).count n =
      if k ≤ n then (gs[n - k]?.getD []).count v else 0 := by
  induction gs generalizing k with
  | nil => simp
  | cons g gs ih =>
    rw [List.zipIdx_cons, List.flatMap_cons, List.count_append, ih, List.count_replicate]
    rcases Nat.lt_trichotomy k n with hlt | rfl | hlt
    · obtain ⟨m, rfl⟩ := Nat.exists_eq_add_of_lt hlt
      have hhead : (k == k + m + 1) = false := by simp; omega
      have hindex : k + m + 1 - k = (k + m + 1 - (k + 1)) + 1 := by omega
      rw [hhead, if_neg (by simp), if_pos (by omega), if_pos (by omega), hindex, List.getElem?_cons_succ,
        Nat.zero_add]
    · rw [beq_self_eq_true, if_pos rfl, if_neg (by omega), if_pos (Nat.le_refl k), Nat.sub_self]
      rfl
    · have hhead : (k == n) = false := by simp; omega
      rw [hhead, if_neg (by simp), if_neg (by omega), if_neg (by omega)]

/-- Each group is listed as often as it lists the variable. -/
theorem count_groupNumbers : (p.groupNumbers v).count n = (p.groups[n]?.getD []).count v :=
  count_flatMap_zipIdx.trans (by simp)

theorem constraintsOn_of_length_le (hp : p.Indexed) (hv : p.vars.length ≤ v) :
    p.constraintsOn v = [] := by
  rw [constraintsOn, hp.constraintIndex_eq, List.getElem?_eq_none (by simpa using hv)]
  rfl

theorem groupsOf_of_length_le (hp : p.Indexed) (hv : p.vars.length ≤ v) : p.groupsOf v = [] := by
  rw [groupsOf, hp.groupIndex_eq, List.getElem?_eq_none (by simpa using hv)]
  rfl

theorem lt_length_of_isAt (hx : IsAt vars x v) : v < vars.length := by
  obtain ⟨y, hy, -⟩ := hx
  exact (List.getElem?_eq_some_iff.mp hy).1

end Numbers

/-- The isolated variables are those that no addition names. -/
theorem mem_isolated_iff_of_records (hp : p.Indexed) (hr : p.Records vars made) :
    v ∈ p.isolated ↔ ∃ x, IsAt vars x v ∧ ∀ a ∈ made, x ∉ a.ids := by
  rw [mem_isolated_iff]
  constructor
  · rintro ⟨hv, hiso⟩
    have hat : IsAt vars p.vars[v].id v := by
      rw [← hr.vars_eq]
      exact ⟨p.vars[v], List.getElem?_eq_getElem hv, rfl⟩
    refine ⟨p.vars[v].id, hat, fun a ha hx => ?_⟩
    rw [(isIsolated_eq_false_iff hp hv).mpr ((hr.takesPart_iff hat).mpr ⟨a, ha, hx⟩)] at hiso
    cases hiso
  · rintro ⟨x, hat, hnone⟩
    have hv : v < p.vars.length := hr.vars_eq ▸ lt_length_of_isAt hat
    refine ⟨hv, ?_⟩
    by_contra hniso
    have hpart := (isIsolated_eq_false_iff hp hv).mp (Bool.eq_false_iff.mpr hniso)
    obtain ⟨a, ha, hx⟩ := (hr.takesPart_iff hat).mp hpart
    exact hnone a ha hx

/-- **What a problem that is built holds and lists.** -/
theorem mirrors_of_build (h : build vars made = .ok p) : p.Mirrors vars made := by
  obtain ⟨hp, hr⟩ := build_invariant h
  have ho := build_inOrder h
  have hvars := hr.vars_eq
  have hgroups : List.Forall₂ (List.Forall₂ (IsAt vars)) (made.filterMap Addition.members?) p.groups :=
    ho.forall₂_groups.imp fun _ _ hg => hr.forall₂_isAt hg
  refine ⟨hvars, ho.constraints_eq, fun c hc => hr.isAt_of_mem_constraints hc, hgroups, ?_, ?_, ?_, ?_,
    ?_, ?_, ?_, ?_⟩
  · rw [hp.constraintIndex_eq, hvars, List.length_map, List.length_range]
  · rw [hp.groupIndex_eq, hvars, List.length_map, List.length_range]
  · intro v
    rcases Nat.lt_or_ge v p.vars.length with hv | hv
    · rw [hp.constraintsOn_eq hv]
      exact pairwise_constraintNumbers
    · rw [constraintsOn_of_length_le hp hv]
      exact .nil
  · intro v x hx n
    rw [hp.constraintsOn_eq (hvars ▸ lt_length_of_isAt hx), mem_constraintNumbers_iff]
    refine exists_congr fun c => and_congr_right fun hc => ?_
    exact hr.side_iff (List.mem_of_getElem? hc) hx
  · intro v
    rcases Nat.lt_or_ge v p.vars.length with hv | hv
    · rw [hp.groupsOf_eq hv]
      exact pairwise_groupNumbers
    · rw [groupsOf_of_length_le hp hv]
      exact .nil
  · intro v x hx n
    rw [hp.groupsOf_eq (hvars ▸ lt_length_of_isAt hx), count_groupNumbers]
    exact hr.count_getElem?_eq hgroups hx
  · exact List.pairwise_lt_range.filter _
  · exact fun v => mem_isolated_iff_of_records hp hr

/-! ## Any calls on any problem -/

theorem ofVariables_eq_error_iff {e : Error ι} :
    ofVariables vars = .error e ↔ ∃ before x after, vars = before ++ x :: after ∧
      (before.map (·.id)).Nodup ∧ x.id ∈ before.map (·.id) ∧ e = .duplicateVariable x.id := by
  have herror : ofVariables vars = .error e ↔
      ∃ x, firstRepeat? Variable.id vars = some x ∧ e = .duplicateVariable x.id := by
    unfold ofVariables
    cases firstRepeat? Variable.id vars with
    | none => simp
    | some x => simp [eq_comm]
  rw [herror]
  simp only [firstRepeat?_eq_some_iff, List.Nodup, List.pairwise_map, List.mem_map]
  constructor
  · rintro ⟨x, ⟨before, after, heq, hne, hrepeat⟩, he⟩
    exact ⟨before, x, after, heq, hne, hrepeat, he⟩
  · rintro ⟨before, x, after, heq, hne, hrepeat, he⟩
    exact ⟨x, ⟨before, after, heq, hne, hrepeat⟩, he⟩

theorem exists_ofVariables_eq_error_iff :
    (∃ e, ofVariables vars = .error e) ↔ ¬(vars.map (·.id)).Nodup := by
  rw [List.Nodup, List.pairwise_map, ← firstRepeat?_eq_none_iff]
  unfold ofVariables
  cases firstRepeat? Variable.id vars with
  | none => simp
  | some x => simp

/-- **Calls keep the indexes.** Variables are refused if an identifier repeats, with the first one that
does. After any calls on a problem with these variables, some of which may have ended in an error, the
problem mirrors those that have not; a call ends in an error if it names a variable that is not declared,
with the first one, and then it has changed nothing. -/
theorem afterCalls_mirrors (vars : List (Variable ι δ)) :
    (∀ e, ofVariables vars = .error e ↔ ∃ before x after, vars = before ++ x :: after ∧
      (before.map (·.id)).Nodup ∧ x.id ∈ before.map (·.id) ∧ e = .duplicateVariable x.id) ∧
    ((∃ e, ofVariables vars = .error e) ↔ ¬(vars.map (·.id)).Nodup) ∧
    ∀ p, ofVariables vars = .ok p → ∀ calls : List (Addition ι δ),
      (p.afterCalls calls).Mirrors vars (calls.filter (IsDeclared vars)) ∧
      ∀ a e q, (call a).run (p.afterCalls calls) = .error e q ↔ q = p.afterCalls calls ∧
        ∃ before x after, a.ids = before ++ x :: after ∧ (∀ y ∈ before, ∃ z ∈ vars, z.id = y) ∧
          (¬∃ z ∈ vars, z.id = x) ∧ e = .undeclaredVariable x := by
  refine ⟨fun e => ofVariables_eq_error_iff, exists_ofVariables_eq_error_iff, fun p hp calls => ?_⟩
  have hmirrors := mirrors_of_build (build_afterCalls hp calls)
  refine ⟨hmirrors, fun a e q => ?_⟩
  have hadd : (p.afterCalls calls).add a = .error e ↔
      ∃ before x after, a.ids = before ++ x :: after ∧ (∀ y ∈ before, ∃ z ∈ vars, z.id = y) ∧
        (¬∃ z ∈ vars, z.id = x) ∧ e = .undeclaredVariable x := by
    rw [add_eq_error_iff, hmirrors.vars_eq]
  rw [← hadd, run_call]
  cases (p.afterCalls calls).add a with
  | ok q' => simp
  | error e' => simp [and_comm, eq_comm]

/-- A constraint of a variable with itself and a group that lists a variable twice are held; a group and a
constraint with an undeclared variable at their ends are refused. -/
theorem afterCalls_mirrors_refused : ∃ p q : Problem Char Nat,
    ofVariables [⟨'x', [1, 2]⟩, ⟨'y', [1]⟩, ⟨'z', [1]⟩] = .ok p ∧
    q = p.afterCalls [.constraint ⟨'x', 'x', fun a b => a < b⟩, .allDistinct ['z', 'x', 'w'],
      .allDistinct ['z', 'x', 'z']] ∧
    q.Mirrors [⟨'x', [1, 2]⟩, ⟨'y', [1]⟩, ⟨'z', [1]⟩]
      [.constraint ⟨'x', 'x', fun a b => a < b⟩, .allDistinct ['z', 'x', 'z']] ∧
    q.constraintsOn 0 = [0] ∧ q.groupsOf 0 = [0] ∧ q.groupsOf 2 = [0, 0] ∧ q.isolated = [1] ∧
    (call (.constraint ⟨'y', 'w', fun a b => a < b⟩)).run q = .error (.undeclaredVariable 'w') q ∧
    ofVariables [⟨'x', [1]⟩, ⟨'y', [1]⟩, (⟨'x', [2]⟩ : Variable Char Nat)] =
      .error (.duplicateVariable 'x') := by
  obtain ⟨-, -, h⟩ := afterCalls_mirrors [⟨'x', [1, 2]⟩, ⟨'y', [1]⟩, (⟨'z', [1]⟩ : Variable Char Nat)]
  obtain ⟨hmirrors, hrefused⟩ := h _ rfl [.constraint ⟨'x', 'x', fun a b => a < b⟩,
    .allDistinct ['z', 'x', 'w'], .allDistinct ['z', 'x', 'z']]
  refine ⟨_, _, rfl, rfl, hmirrors, rfl, rfl, rfl, rfl, ?_, rfl⟩
  exact (hrefused _ _ _).mpr ⟨rfl, ['y'], 'w', [], rfl, by simp, by simp, rfl⟩

end Problem

end GraphHom
