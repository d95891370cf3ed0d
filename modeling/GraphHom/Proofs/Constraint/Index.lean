import GraphHom.Constraint.Problem
import Mathlib.Data.List.Forall2

/-!
# The indexes of a constraint problem

A problem is made from variables by a list of additions. What a search over it relies on is kept by
every addition:

* `Problem.Indexed` — the two indexes list, for every variable, exactly the constraints and groups it
  takes part in (`ofVariables_indexed`, `add_indexed`);
* `Problem.Records` — the constraints and groups are those that were added, at the positions of the
  variables they name (`ofVariables_records`, `add_records`).

`build_invariant` carries both along a whole list of additions, and `exists_build` says when there is
a problem at all.
-/

namespace GraphHom

variable {ι δ : Type}

/-- What can be added to a problem. -/
inductive Addition (ι δ : Type) where
  /-- A constraint between two variables. -/
  | constraint (c : Constraint ι δ)
  /-- Variables that must take pairwise different values. -/
  | allDistinct (ids : List ι)

/-- The identifiers that an addition names. -/
def Addition.ids : Addition ι δ → List ι
  | .constraint c => [c.lhs, c.rhs]
  | .allDistinct ids => ids

/-! ## Chains of fallible steps -/

theorem bind_eq_ok_iff {ε α β : Type} {x : Except ε α} {f : α → Except ε β} {b : β} :
    x >>= f = .ok b ↔ ∃ a, x = .ok a ∧ f a = .ok b := by
  cases x with
  | error e => simp [bind, Except.bind]
  | ok a => simp [bind, Except.bind]

theorem mapM_eq_ok_iff {ε α β : Type} {f : α → Except ε β} {l : List α} {r : List β} :
    l.mapM f = .ok r ↔ List.Forall₂ (fun a b => f a = .ok b) l r := by
  induction l generalizing r with
  | nil =>
    rw [List.mapM_nil, List.forall₂_nil_left_iff]
    exact ⟨fun h => (Except.ok.inj h).symm, fun h => congrArg _ h.symm⟩
  | cons a l ih =>
    rw [List.mapM_cons, bind_eq_ok_iff, List.forall₂_cons_left_iff]
    constructor
    · rintro ⟨b, hb, h⟩
      obtain ⟨bs, hbs, h⟩ := bind_eq_ok_iff.mp h
      exact ⟨b, bs, hb, ih.mp hbs, (Except.ok.inj h).symm⟩
    · rintro ⟨b, bs, hb, hbs, rfl⟩
      exact ⟨b, hb, bind_eq_ok_iff.mpr ⟨bs, ih.mpr hbs, rfl⟩⟩

theorem exists_mem_of_mapM_left {ε α β : Type} {f : α → Except ε β} {l : List α} {r : List β}
    (h : l.mapM f = .ok r) {a : α} (ha : a ∈ l) : ∃ b ∈ r, f a = .ok b := by
  obtain ⟨hlen, hall⟩ := List.forall₂_iff_get.mp (mapM_eq_ok_iff.mp h)
  obtain ⟨i, hi, rfl⟩ := List.getElem_of_mem ha
  exact ⟨r[i], List.getElem_mem (hlen ▸ hi), hall i hi (hlen ▸ hi)⟩

theorem exists_mem_of_mapM_right {ε α β : Type} {f : α → Except ε β} {l : List α} {r : List β}
    (h : l.mapM f = .ok r) {b : β} (hb : b ∈ r) : ∃ a ∈ l, f a = .ok b := by
  obtain ⟨hlen, hall⟩ := List.forall₂_iff_get.mp (mapM_eq_ok_iff.mp h)
  obtain ⟨i, hi, rfl⟩ := List.getElem_of_mem hb
  exact ⟨l[i], List.getElem_mem (hlen ▸ hi), hall i (hlen ▸ hi) hi⟩

/-- What every step keeps, a chain of steps keeps. -/
theorem foldlM_induction {ε α β : Type} {f : β → α → Except ε β} {motive : List α → β → Prop}
    (hstep : ∀ done a b c, motive done b → f b a = .ok c → motive (done ++ [a]) c) :
    ∀ (l done : List α) (b c : β), motive done b → l.foldlM f b = .ok c → motive (done ++ l) c := by
  intro l
  -- `done` grows at its end while the induction takes steps from the front of `l`
  induction l with
  | nil =>
    intro done b c hb h
    rw [List.append_nil, ← Except.ok.inj h]
    exact hb
  | cons a l ih =>
    intro done b c hb h
    obtain ⟨b', hb', h⟩ := bind_eq_ok_iff.mp h
    have htail := ih (done ++ [a]) b' c (hstep done a b b' hb hb') h
    rwa [List.append_assoc] at htail

/-! ## Numbered lists -/

theorem pairwise_zipIdx {α : Type} {l : List α} : l.zipIdx.Pairwise fun x y => x.2 < y.2 := by
  have hnumbers : (l.zipIdx.map Prod.snd).Pairwise (· < ·) := by
    rw [List.zipIdx_map_snd]
    exact List.pairwise_lt_range'
  exact List.pairwise_map.mp hnumbers

/-- Numbers that are picked out of a numbered list come in ascending order. -/
theorem pairwise_filterMap_zipIdx {α : Type} {l : List α} {f : α × Nat → Option Nat}
    (hf : ∀ x n, f x = some n → n = x.2) : (l.zipIdx.filterMap f).Pairwise (· < ·) := by
  refine pairwise_zipIdx.filterMap _ fun x y hxy n hn m hm => ?_
  rw [hf x n hn, hf y m hm]
  exact hxy

namespace Problem

/-! ## What the indexes list -/

/-- The numbers of the constraints with the variable at position `v` on one side or both. -/
def constraintNumbers (p : Problem ι δ) (v : Nat) : List Nat :=
  p.constraints.zipIdx.filterMap fun (c, n) => if c.lhsAt = v ∨ c.rhsAt = v then some n else none

/-- The numbers of the groups with the variable at position `v`, each as often as it lists `v`. -/
def groupNumbers (p : Problem ι δ) (v : Nat) : List Nat :=
  p.groups.zipIdx.flatMap fun (g, n) => List.replicate (g.count v) n

/-- The indexes of a problem are complete and list nothing else. -/
structure Indexed (p : Problem ι δ) : Prop where
  /-- The entry of every variable numbers the constraints on it. -/
  constraintIndex_eq : p.constraintIndex = (List.range p.vars.length).map p.constraintNumbers
  /-- The entry of every variable numbers the groups it is in. -/
  groupIndex_eq : p.groupIndex = (List.range p.vars.length).map p.groupNumbers

/-- Entering `n` at some positions appends it to the entry of each, as often as it is listed. -/
theorem enterAt_map_range {f : Nat → List Nat} {len n : Nat} {positions : List Nat} :
    enterAt ((List.range len).map f) n positions =
      (List.range len).map fun v => f v ++ List.replicate (positions.count v) n := by
  induction positions generalizing f with
  | nil => simp [enterAt]
  | cons w positions ih =>
    -- the first position alone, as an index of its own to which the others are entered
    have hmodify : ((List.range len).map f).modify w (· ++ [n]) =
        (List.range len).map fun v => f v ++ List.replicate (if w = v then 1 else 0) n := by
      apply List.ext_getElem (by simp)
      intro v h₁ h₂
      simp only [List.getElem_modify, List.getElem_map, List.getElem_range]
      split <;> simp
    have hrest := ih (f := fun v => f v ++ List.replicate (if w = v then 1 else 0) n)
    simp only [enterAt, List.foldl_cons] at hrest ⊢
    rw [hmodify, hrest]
    refine List.map_congr_left fun v _ => ?_
    rw [List.append_assoc, List.replicate_append_replicate, List.count_cons]
    congr 2
    simp only [beq_iff_eq]
    omega

theorem mem_constraintNumbers_iff {p : Problem ι δ} {v n : Nat} :
    n ∈ p.constraintNumbers v ↔
      ∃ c, p.constraints[n]? = some c ∧ (c.lhsAt = v ∨ c.rhsAt = v) := by
  simp only [constraintNumbers, List.mem_filterMap, Prod.exists, List.mem_zipIdx_iff_getElem?]
  constructor
  · rintro ⟨c, m, hc, h⟩
    split at h
    · rename_i hv
      cases h
      exact ⟨c, hc, hv⟩
    · cases h
  · rintro ⟨c, hc, hv⟩
    exact ⟨c, n, hc, if_pos hv⟩

theorem mem_groupNumbers_iff {p : Problem ι δ} {v n : Nat} :
    n ∈ p.groupNumbers v ↔ ∃ g, p.groups[n]? = some g ∧ v ∈ g := by
  simp only [groupNumbers, List.mem_flatMap, Prod.exists, List.mem_zipIdx_iff_getElem?,
    List.mem_replicate]
  constructor
  · rintro ⟨g, m, hg, hcount, rfl⟩
    exact ⟨g, hg, List.count_pos_iff.mp (Nat.pos_of_ne_zero hcount)⟩
  · rintro ⟨g, hg, hv⟩
    exact ⟨g, n, hg, Nat.ne_of_gt (List.count_pos_iff.mpr hv), rfl⟩

theorem Indexed.constraintsOn_eq {p : Problem ι δ} (hp : p.Indexed) {v : Nat}
    (hv : v < p.vars.length) : p.constraintsOn v = p.constraintNumbers v := by
  simp [constraintsOn, hp.constraintIndex_eq, List.getElem?_map, List.getElem?_range hv]

theorem Indexed.groupsOf_eq {p : Problem ι δ} (hp : p.Indexed) {v : Nat}
    (hv : v < p.vars.length) : p.groupsOf v = p.groupNumbers v := by
  simp [groupsOf, hp.groupIndex_eq, List.getElem?_map, List.getElem?_range hv]

/-! ## Positions -/

section Positions

variable [DecidableEq ι]

theorem position_eq_ok_iff_findIdx? {p : Problem ι δ} {x : ι} {v : Nat} :
    p.position x = .ok v ↔ p.vars.findIdx? (·.id = x) = some v := by
  unfold position
  cases p.vars.findIdx? (·.id = x) with
  | none => simp
  | some w => simp

/-- A position is that of a variable with the identifier looked up. -/
theorem getElem?_of_position {p : Problem ι δ} {x : ι} {v : Nat} (h : p.position x = .ok v) :
    ∃ y, p.vars[v]? = some y ∧ y.id = x := by
  rw [position_eq_ok_iff_findIdx?, List.findIdx?_eq_some_iff_getElem] at h
  obtain ⟨hv, hid, -⟩ := h
  exact ⟨p.vars[v], List.getElem?_eq_getElem hv, by simpa using hid⟩

/-- Where identifiers do not repeat, a variable is found at its own position. -/
theorem position_of_getElem? {p : Problem ι δ} {y : Variable ι δ} {v : Nat}
    (hids : p.vars.Pairwise fun y z => y.id ≠ z.id) (hy : p.vars[v]? = some y) :
    p.position y.id = .ok v := by
  obtain ⟨hv, rfl⟩ := List.getElem?_eq_some_iff.mp hy
  rw [position_eq_ok_iff_findIdx?, List.findIdx?_eq_some_iff_getElem]
  refine ⟨hv, by simp, fun w hw => ?_⟩
  -- an earlier variable that is found would repeat the identifier
  have hne := List.pairwise_iff_getElem.mp hids w v (Nat.lt_trans hw hv) hv hw
  simpa using hne

theorem position_lt {p : Problem ι δ} {x : ι} {v : Nat} (h : p.position x = .ok v) :
    v < p.vars.length := by
  obtain ⟨y, hy, -⟩ := getElem?_of_position h
  exact (List.getElem?_eq_some_iff.mp hy).1

end Positions

/-! ## Additions -/

variable [DecidableEq ι]

/-- Makes one addition. -/
def add (p : Problem ι δ) : Addition ι δ → Except (Error ι) (Problem ι δ)
  | .constraint c => p.addConstraint c
  | .allDistinct ids => p.addAllDistinct ids

/-- The problem with the given variables and additions. -/
def build (vars : List (Variable ι δ)) (additions : List (Addition ι δ)) :
    Except (Error ι) (Problem ι δ) := do
  let p ← ofVariables vars
  additions.foldlM add p

/-- What adding a constraint does when both of its variables are declared. -/
theorem addConstraint_eq_ok_iff {p q : Problem ι δ} {c : Constraint ι δ} :
    p.addConstraint c = .ok q ↔ ∃ l r, p.position c.lhs = .ok l ∧ p.position c.rhs = .ok r ∧
      q = { p with
        constraints := p.constraints ++ [⟨c, l, r⟩]
        constraintIndex := enterAt p.constraintIndex p.constraints.length
          (if r = l then [l] else [l, r]) } := by
  unfold addConstraint
  rw [bind_eq_ok_iff]
  constructor
  · rintro ⟨l, hl, h⟩
    obtain ⟨r, hr, h⟩ := bind_eq_ok_iff.mp h
    exact ⟨l, r, hl, hr, (Except.ok.inj h).symm⟩
  · rintro ⟨l, r, hl, hr, rfl⟩
    exact ⟨l, hl, bind_eq_ok_iff.mpr ⟨r, hr, rfl⟩⟩

/-- What adding a group does when all of its members are declared. -/
theorem addAllDistinct_eq_ok_iff {p q : Problem ι δ} {ids : List ι} :
    p.addAllDistinct ids = .ok q ↔ ∃ members, ids.mapM p.position = .ok members ∧
      q = { p with
        groups := p.groups ++ [members]
        groupIndex := enterAt p.groupIndex p.groups.length members } := by
  unfold addAllDistinct
  rw [bind_eq_ok_iff]
  constructor
  · rintro ⟨members, hm, h⟩
    exact ⟨members, hm, (Except.ok.inj h).symm⟩
  · rintro ⟨members, hm, rfl⟩
    exact ⟨members, hm, rfl⟩

/-- What making a problem of variables alone does when their identifiers do not repeat. -/
theorem ofVariables_eq_ok_iff {vars : List (Variable ι δ)} {p : Problem ι δ} :
    ofVariables vars = .ok p ↔ (vars.Pairwise fun y z => y.id ≠ z.id) ∧
      p = ⟨vars, [], List.replicate vars.length [], [], List.replicate vars.length []⟩ := by
  have hrepeat : firstRepeat? Variable.id vars = none ↔ vars.Pairwise fun y z => y.id ≠ z.id :=
    firstRepeat?_eq_none_iff
  rw [← hrepeat]
  unfold ofVariables
  cases firstRepeat? Variable.id vars with
  | none => simp [eq_comm]
  | some x => simp

theorem ofVariables_indexed {vars : List (Variable ι δ)} {p : Problem ι δ}
    (h : ofVariables vars = .ok p) : p.Indexed := by
  obtain ⟨-, rfl⟩ := ofVariables_eq_ok_iff.mp h
  constructor
  · refine (List.eq_replicate_iff.mpr ⟨by simp, fun l hl => ?_⟩).symm
    obtain ⟨v, -, rfl⟩ := List.mem_map.mp hl
    rfl
  · refine (List.eq_replicate_iff.mpr ⟨by simp, fun l hl => ?_⟩).symm
    obtain ⟨v, -, rfl⟩ := List.mem_map.mp hl
    rfl

/-- **An addition keeps the indexes.** Its number is entered once for every time a variable takes
part in it, where a constraint counts a variable on both of its sides once. -/
theorem add_indexed {p q : Problem ι δ} {a : Addition ι δ} (hp : p.Indexed) (h : p.add a = .ok q) :
    q.Indexed := by
  cases a with
  | constraint c =>
    obtain ⟨l, r, -, -, rfl⟩ := addConstraint_eq_ok_iff.mp h
    refine ⟨?_, hp.groupIndex_eq⟩
    show enterAt p.constraintIndex p.constraints.length _ = (List.range p.vars.length).map _
    rw [hp.constraintIndex_eq, enterAt_map_range]
    refine List.map_congr_left fun v _ => ?_
    simp only [constraintNumbers, List.zipIdx_append, List.filterMap_append, Nat.zero_add]
    congr 1
    -- the number is new for `v` if `v` is on either side, and then it is entered once
    by_cases hlr : r = l
    · subst hlr
      by_cases hl : r = v
      · simp [hl]
      · simp [hl]
    · by_cases hl : l = v
      · subst hl
        simp [hlr]
      · by_cases hr : r = v
        · subst hr
          simp [hlr, hl]
        · simp [hlr, hl, hr]
  | allDistinct ids =>
    obtain ⟨members, -, rfl⟩ := addAllDistinct_eq_ok_iff.mp h
    refine ⟨hp.constraintIndex_eq, ?_⟩
    show enterAt p.groupIndex p.groups.length _ = (List.range p.vars.length).map _
    rw [hp.groupIndex_eq, enterAt_map_range]
    refine List.map_congr_left fun v _ => ?_
    -- the number is new for `v` as often as the group lists it
    simp [groupNumbers, List.zipIdx_append]

/-! ## What is recorded of the additions -/

/-- A problem holds the given variables and additions, at the positions of the variables they name. -/
structure Records (p : Problem ι δ) (vars : List (Variable ι δ)) (additions : List (Addition ι δ)) :
    Prop where
  /-- The variables are the given ones. -/
  vars_eq : p.vars = vars
  /-- No two variables have one identifier. -/
  ids_ne : vars.Pairwise fun y z => y.id ≠ z.id
  /-- Every constraint that was added is held. -/
  exists_placed : ∀ c, .constraint c ∈ additions → ∃ pc ∈ p.constraints, pc.constraint = c
  /-- Every constraint held was added, and stands at its own variables. -/
  of_mem_constraints : ∀ pc ∈ p.constraints, .constraint pc.constraint ∈ additions ∧
    p.position pc.constraint.lhs = .ok pc.lhsAt ∧ p.position pc.constraint.rhs = .ok pc.rhsAt
  /-- Every group that was added is held. -/
  exists_group : ∀ ids, .allDistinct ids ∈ additions → ∃ g ∈ p.groups, ids.mapM p.position = .ok g
  /-- Every group held was added, and lists the positions of its own variables. -/
  of_mem_groups : ∀ g ∈ p.groups, ∃ ids, .allDistinct ids ∈ additions ∧
    ids.mapM p.position = .ok g

theorem ofVariables_records {vars : List (Variable ι δ)} {p : Problem ι δ}
    (h : ofVariables vars = .ok p) : p.Records vars [] := by
  obtain ⟨hids, rfl⟩ := ofVariables_eq_ok_iff.mp h
  exact ⟨rfl, hids, by simp, by simp, by simp, by simp⟩

/-- **An addition is recorded**, and nothing that was recorded before is lost. -/
theorem add_records {p q : Problem ι δ} {vars : List (Variable ι δ)}
    {additions : List (Addition ι δ)} {a : Addition ι δ} (hp : p.Records vars additions)
    (h : p.add a = .ok q) : q.Records vars (additions ++ [a]) := by
  cases a with
  | constraint c =>
    obtain ⟨l, r, hl, hr, rfl⟩ := addConstraint_eq_ok_iff.mp h
    -- only the last constraint is new; the groups are as before
    refine ⟨hp.vars_eq, hp.ids_ne, ?_, ?_, ?_, ?_⟩
    · intro c' hc'
      rcases List.mem_append.mp hc' with hc' | hc'
      · obtain ⟨pc, hpc, heq⟩ := hp.exists_placed c' hc'
        exact ⟨pc, List.mem_append_left _ hpc, heq⟩
      · cases List.mem_singleton.mp hc'
        exact ⟨⟨c, l, r⟩, List.mem_append_right _ List.mem_cons_self, rfl⟩
    · intro pc hpc
      rcases List.mem_append.mp hpc with hpc | hpc
      · obtain ⟨hmem, hpos⟩ := hp.of_mem_constraints pc hpc
        exact ⟨List.mem_append_left _ hmem, hpos⟩
      · cases List.mem_singleton.mp hpc
        exact ⟨List.mem_append_right _ List.mem_cons_self, hl, hr⟩
    · intro ids hids
      rcases List.mem_append.mp hids with hids | hids
      · exact hp.exists_group ids hids
      · cases List.mem_singleton.mp hids
    · intro g hg
      obtain ⟨ids, hmem, hpos⟩ := hp.of_mem_groups g hg
      exact ⟨ids, List.mem_append_left _ hmem, hpos⟩
  | allDistinct ids =>
    obtain ⟨members, hm, rfl⟩ := addAllDistinct_eq_ok_iff.mp h
    -- only the last group is new; the constraints are as before
    refine ⟨hp.vars_eq, hp.ids_ne, ?_, ?_, ?_, ?_⟩
    · intro c hc
      rcases List.mem_append.mp hc with hc | hc
      · exact hp.exists_placed c hc
      · cases List.mem_singleton.mp hc
    · intro pc hpc
      obtain ⟨hmem, hpos⟩ := hp.of_mem_constraints pc hpc
      exact ⟨List.mem_append_left _ hmem, hpos⟩
    · intro ids' hids'
      rcases List.mem_append.mp hids' with hids' | hids'
      · obtain ⟨g, hg, hpos⟩ := hp.exists_group ids' hids'
        exact ⟨g, List.mem_append_left _ hg, hpos⟩
      · cases List.mem_singleton.mp hids'
        exact ⟨members, List.mem_append_right _ List.mem_cons_self, hm⟩
    · intro g hg
      rcases List.mem_append.mp hg with hg | hg
      · obtain ⟨ids', hmem, hpos⟩ := hp.of_mem_groups g hg
        exact ⟨ids', List.mem_append_left _ hmem, hpos⟩
      · cases List.mem_singleton.mp hg
        exact ⟨ids, List.mem_append_right _ List.mem_cons_self, hm⟩

/-- **A problem that is built is indexed and records its additions.** -/
theorem build_invariant {vars : List (Variable ι δ)} {additions : List (Addition ι δ)}
    {p : Problem ι δ} (h : build vars additions = .ok p) :
    p.Indexed ∧ p.Records vars additions := by
  obtain ⟨q, hq, h⟩ := bind_eq_ok_iff.mp h
  have hchain := foldlM_induction (f := add)
    (motive := fun done (p : Problem ι δ) => p.Indexed ∧ p.Records vars done)
    (fun done a b c hb hc => ⟨add_indexed hb.1 hc, add_records hb.2 hc⟩)
  exact hchain additions [] q p ⟨ofVariables_indexed hq, ofVariables_records hq⟩ h

/-! ## When a problem can be built -/

theorem exists_position {p : Problem ι δ} {x : ι} (hx : ∃ y ∈ p.vars, y.id = x) :
    ∃ v, p.position x = .ok v := by
  obtain ⟨y, hy, hid⟩ := hx
  cases hfind : p.vars.findIdx? (·.id = x) with
  | some v => exact ⟨v, position_eq_ok_iff_findIdx?.mpr hfind⟩
  | none =>
    have hnot := List.findIdx?_eq_none_iff.mp hfind y hy
    simp [hid] at hnot

theorem exists_mapM_position {p : Problem ι δ} {ids : List ι}
    (h : ∀ x ∈ ids, ∃ y ∈ p.vars, y.id = x) : ∃ g, ids.mapM p.position = .ok g := by
  induction ids with
  | nil => exact ⟨[], rfl⟩
  | cons x ids ih =>
    obtain ⟨v, hv⟩ := exists_position (h x List.mem_cons_self)
    obtain ⟨g, hg⟩ := ih fun y hy => h y (List.mem_cons_of_mem x hy)
    exact ⟨v :: g, mapM_eq_ok_iff.mpr (List.Forall₂.cons hv (mapM_eq_ok_iff.mp hg))⟩

/-- An addition that names declared variables only can be made, and leaves the variables alone. -/
theorem exists_add {p : Problem ι δ} {a : Addition ι δ}
    (h : ∀ x ∈ a.ids, ∃ y ∈ p.vars, y.id = x) : ∃ q, p.add a = .ok q ∧ q.vars = p.vars := by
  cases a with
  | constraint c =>
    obtain ⟨l, hl⟩ := exists_position (h c.lhs List.mem_cons_self)
    obtain ⟨r, hr⟩ := exists_position (h c.rhs (List.mem_cons_of_mem _ List.mem_cons_self))
    exact ⟨_, addConstraint_eq_ok_iff.mpr ⟨l, r, hl, hr, rfl⟩, rfl⟩
  | allDistinct ids =>
    obtain ⟨g, hg⟩ := exists_mapM_position h
    exact ⟨_, addAllDistinct_eq_ok_iff.mpr ⟨g, hg, rfl⟩, rfl⟩

/-- **Variables without repetition and additions that name no others build a problem.** -/
theorem exists_build {vars : List (Variable ι δ)} {additions : List (Addition ι δ)}
    (hids : vars.Pairwise fun y z => y.id ≠ z.id)
    (h : ∀ a ∈ additions, ∀ x ∈ a.ids, ∃ y ∈ vars, y.id = x) :
    ∃ p, build vars additions = .ok p := by
  -- additions leave the variables alone, so that each one finds those it names
  have hchain : ∀ q : Problem ι δ, q.vars = vars → ∃ p, additions.foldlM add q = .ok p := by
    induction additions with
    | nil => exact fun q _ => ⟨q, rfl⟩
    | cons a additions ih =>
      intro q hq
      obtain ⟨q', ha, hvars⟩ := exists_add (hq ▸ h a List.mem_cons_self)
      obtain ⟨p, hp⟩ := ih (fun b hb => h b (List.mem_cons_of_mem a hb)) q' (hvars.trans hq)
      exact ⟨p, bind_eq_ok_iff.mpr ⟨q', ha, hp⟩⟩
  obtain ⟨q, hq, hvars⟩ : ∃ q, ofVariables vars = .ok q ∧ q.vars = vars :=
    ⟨_, ofVariables_eq_ok_iff.mpr ⟨hids, rfl⟩, rfl⟩
  obtain ⟨p, hp⟩ := hchain q hvars
  exact ⟨p, bind_eq_ok_iff.mpr ⟨q, hq, hp⟩⟩

end Problem

end GraphHom
