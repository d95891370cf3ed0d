import GraphHom.Proofs.Constraint.Solutions

/-!
# The satisfying assignments of a constraint problem

What a problem asks for, said without positions of variables, indexes and search: an assignment
satisfies the additions that made the problem (`Addition.SatisfiedBy`). A complete selection agrees
exactly if the assignment it describes does (`agrees_iff_satisfiedBy`).

* `solveAll_eq_map_assignmentOf` — the solver lists the satisfying assignments, each once for every
  choice of positions in the domains that describes it;
* `mem_solveAll_iff`, `nodup_solveAll` — the same without choices, where no domain repeats a value.
-/

namespace GraphHom

variable {ι δ : Type}

/-! ## What is asked of an assignment -/

/-- A choice picks a position of its domain for every variable. -/
def IsChoice (vars : List (Variable ι δ)) (choice : List Nat) : Prop :=
  List.Forall₂ (fun x i => i < x.domain.length) vars choice

/-- The assignment that gives every variable the value at the chosen position of its domain. -/
def assignmentOf (vars : List (Variable ι δ)) (choice : List Nat) : Assignment ι δ :=
  (vars.zip choice).filterMap fun (x, i) => x.domain[i]?.map fun d => (x.id, d)

/-- An assignment gives every variable, in order of declaration, a value of its domain. -/
def IsValued (vars : List (Variable ι δ)) (assignment : Assignment ι δ) : Prop :=
  List.Forall₂ (fun x e => e.1 = x.id ∧ e.2 ∈ x.domain) vars assignment

/-- A constraint is satisfied by the values of its two variables, the left one on the left; a group
by different values for any two different variables of it. -/
def Addition.SatisfiedBy (assignment : Assignment ι δ) : Addition ι δ → Prop
  | .constraint c =>
    ∃ a b, (c.lhs, a) ∈ assignment ∧ (c.rhs, b) ∈ assignment ∧ c.holds a b = true
  | .allDistinct ids => ∀ x ∈ ids, ∀ y ∈ ids, x ≠ y → ∀ a b,
    (x, a) ∈ assignment → (y, b) ∈ assignment → a ≠ b

/-! ## Choices -/

theorem assignmentOf_cons {x : Variable ι δ} {vars : List (Variable ι δ)} {i : Nat}
    {choice : List Nat} (hi : i < x.domain.length) :
    assignmentOf (x :: vars) (i :: choice) = (x.id, x.domain[i]) :: assignmentOf vars choice := by
  simp [assignmentOf, List.getElem?_eq_getElem hi]

/-- The assignments that choices describe are those that take their values from the domains. -/
theorem isValued_iff_exists_choice {vars : List (Variable ι δ)} {A : Assignment ι δ} :
    IsValued vars A ↔ ∃ choice, IsChoice vars choice ∧ A = assignmentOf vars choice := by
  induction vars generalizing A with
  | nil =>
    rw [IsValued, List.forall₂_nil_left_iff]
    constructor
    · rintro rfl
      exact ⟨[], List.Forall₂.nil, rfl⟩
    · rintro ⟨choice, -, rfl⟩
      rfl
  | cons x vars ih =>
    rw [IsValued, List.forall₂_cons_left_iff]
    constructor
    · rintro ⟨⟨y, d⟩, A, ⟨rfl, hd⟩, hA, rfl⟩
      obtain ⟨i, hi, rfl⟩ := List.getElem_of_mem hd
      obtain ⟨choice, hchoice, rfl⟩ := ih.mp hA
      exact ⟨i :: choice, List.Forall₂.cons hi hchoice, (assignmentOf_cons hi).symm⟩
    · rintro ⟨choice, hchoice, rfl⟩
      obtain ⟨i, rest, hi, hrest, rfl⟩ := List.forall₂_cons_left_iff.mp hchoice
      exact ⟨_, _, ⟨rfl, List.getElem_mem hi⟩, ih.mpr ⟨rest, hrest, rfl⟩, assignmentOf_cons hi⟩

/-- Where no domain repeats a value, different choices describe different assignments. -/
theorem assignmentOf_inj {vars : List (Variable ι δ)} (hdom : ∀ x ∈ vars, x.domain.Nodup)
    {choice choice' : List Nat} (h : IsChoice vars choice) (h' : IsChoice vars choice')
    (heq : assignmentOf vars choice = assignmentOf vars choice') : choice = choice' := by
  induction vars generalizing choice choice' with
  | nil => rw [List.forall₂_nil_left_iff.mp h, List.forall₂_nil_left_iff.mp h']
  | cons x vars ih =>
    obtain ⟨i, rest, hi, hrest, rfl⟩ := List.forall₂_cons_left_iff.mp h
    obtain ⟨j, rest', hj, hrest', rfl⟩ := List.forall₂_cons_left_iff.mp h'
    rw [assignmentOf_cons hi, assignmentOf_cons hj] at heq
    injection heq with hhead htail
    have hij : i = j := (hdom x List.mem_cons_self).getElem_inj_iff.mp (Prod.mk.inj hhead).2
    rw [hij, ih (fun y hy => hdom y (List.mem_cons_of_mem x hy)) hrest hrest' htail]

namespace Problem

/-- Reading values off a complete selection is reading them off its choice of positions. -/
theorem filterMap_zipIdx_eq {β : Type} {f : Variable ι δ → Nat → Option β} (before : List Nat)
    (vars : List (Variable ι δ)) (choice : List Nat) :
    (vars.zipIdx before.length).filterMap
        (fun (x, v) => ((before ++ choice)[v]?).bind (f x)) =
      (vars.zip choice).filterMap fun (x, i) => f x i := by
  -- the entries before the first variable are kept in `before`, so that positions stay as they are
  induction vars generalizing before choice with
  | nil => rfl
  | cons x vars ih =>
    cases choice with
    | nil =>
      simp only [List.zipIdx_cons, List.zip_nil_right, List.filterMap_nil, List.append_nil,
        List.filterMap_eq_nil_iff]
      rintro ⟨y, v⟩ hmem
      have hv : before.length ≤ v := by
        rcases List.mem_cons.mp hmem with heq | hmem
        · cases heq
          exact Nat.le_refl _
        · exact Nat.le_of_succ_le (List.le_snd_of_mem_zipIdx hmem)
      simp [List.getElem?_eq_none hv]
    | cons i choice =>
      have hrest := ih (before ++ [i]) choice
      simp only [List.length_append, List.length_singleton, List.append_assoc,
        List.singleton_append] at hrest
      rw [List.zipIdx_cons, List.zip_cons_cons, List.filterMap_cons, List.filterMap_cons, hrest]
      simp

theorem assignment_map_some {p : Problem ι δ} {choice : List Nat} :
    p.assignment (choice.map some) = assignmentOf p.vars choice := by
  rw [assignmentOf, ← filterMap_zipIdx_eq (f := fun x i => x.domain[i]?.map fun d => (x.id, d)) []]
  refine List.filterMap_congr fun ⟨x, v⟩ hmem => ?_
  have hx : p.vars[v]? = some x := List.mem_zipIdx_iff_getElem?.mp hmem
  simp only [value, domain, hx, List.getElem?_map, List.nil_append]
  cases choice[v]? with
  | none => rfl
  | some i => rfl

/-- The complete selections within the domains are the choices. -/
theorem isComplete_iff_exists_choice {p : Problem ι δ} {s : Selection}
    (hlen : s.length = p.vars.length)
    (hlt : ∀ v i : Nat, s[v]? = some (some i) → i < (p.domain v).length) :
    p.IsComplete s ↔ ∃ choice, IsChoice p.vars choice ∧ s = choice.map some := by
  constructor
  · intro h
    -- no entry is open, so the default is never taken
    have hget : ∀ v (hv : v < s.length), s[v] = some (s[v].getD 0) := by
      intro v hv
      obtain ⟨i, hi⟩ := h v (hlen ▸ hv)
      rw [List.getElem?_eq_getElem hv] at hi
      rw [Option.some.inj hi]
      rfl
    refine ⟨s.map (·.getD 0), ?_, ?_⟩
    · rw [IsChoice, List.forall₂_iff_get]
      refine ⟨by simp [hlen], fun v hv hv' => ?_⟩
      have hvs : v < s.length := hlen ▸ hv
      have hbound := hlt v (s[v].getD 0) (by rw [List.getElem?_eq_getElem hvs, ← hget v hvs])
      simpa [domain, List.getElem?_eq_getElem hv] using hbound
    · refine List.ext_getElem (by simp) fun v hv _ => ?_
      rw [List.getElem_map, List.getElem_map]
      exact hget v hv
  · rintro ⟨choice, hchoice, rfl⟩ v hv
    have hvc : v < choice.length := hchoice.length_eq ▸ hv
    exact ⟨choice[v], by rw [List.getElem?_map, List.getElem?_eq_getElem hvc]; rfl⟩

/-! ## Agreeing is satisfying -/

variable [DecidableEq ι]

theorem mem_assignment_iff {p : Problem ι δ} {vars : List (Variable ι δ)}
    {additions : List (Addition ι δ)} (hp : p.Records vars additions) {s : Selection} {x : ι}
    {d : δ} :
    (x, d) ∈ p.assignment s ↔ ∃ v, p.position x = .ok v ∧ p.value s v = some d := by
  simp only [assignment, List.mem_filterMap, Prod.exists, List.mem_zipIdx_iff_getElem?,
    Option.map_eq_some_iff, Prod.mk.injEq]
  constructor
  · rintro ⟨y, v, hy, e, he, rfl, rfl⟩
    exact ⟨v, position_of_getElem? (hp.vars_eq ▸ hp.ids_ne) hy, he⟩
  · rintro ⟨v, hv, hd⟩
    obtain ⟨y, hy, rfl⟩ := getElem?_of_position hv
    exact ⟨y, v, hy, d, hd, rfl, rfl⟩

omit [DecidableEq ι] in
theorem exists_value {p : Problem ι δ} {s : Selection} {v : Nat} (hv : v < p.vars.length)
    (hlt : ∀ v i : Nat, s[v]? = some (some i) → i < (p.domain v).length)
    (hcomplete : p.IsComplete s) : ∃ d, p.value s v = some d := by
  obtain ⟨i, hi⟩ := hcomplete v hv
  exact ⟨_, value_eq_some_iff.mpr ⟨i, hi, List.getElem?_eq_getElem (hlt v i hi)⟩⟩

/-- What a group added under identifiers says is what the group held under positions says. -/
theorem satisfiedBy_allDistinct_iff {p : Problem ι δ} {vars : List (Variable ι δ)}
    {additions : List (Addition ι δ)} (hp : p.Records vars additions) {s : Selection} {ids : List ι}
    {g : List Nat} (hg : ids.mapM p.position = .ok g) :
    (Addition.allDistinct ids).SatisfiedBy (p.assignment s) ↔
      ∀ u ∈ g, ∀ v ∈ g, u ≠ v → ∀ d, p.value s u = some d → p.value s v ≠ some d := by
  constructor
  · intro h u hu v hv huv d hd hd'
    obtain ⟨x, hx, hxu⟩ := exists_mem_of_mapM_right hg hu
    obtain ⟨y, hy, hyv⟩ := exists_mem_of_mapM_right hg hv
    refine h x hx y hy ?_ d d ((mem_assignment_iff hp).mpr ⟨u, hxu, hd⟩)
      ((mem_assignment_iff hp).mpr ⟨v, hyv, hd'⟩) rfl
    rintro rfl
    rw [hxu] at hyv
    exact huv (Except.ok.inj hyv)
  · intro h x hx y hy hxy a b ha hb hab
    obtain ⟨u, hu, hxu⟩ := exists_mem_of_mapM_left hg hx
    obtain ⟨v, hv, hyv⟩ := exists_mem_of_mapM_left hg hy
    obtain ⟨u', hu', ha⟩ := (mem_assignment_iff hp).mp ha
    obtain ⟨v', hv', hb⟩ := (mem_assignment_iff hp).mp hb
    rw [hxu] at hu'
    rw [hyv] at hv'
    cases hu'
    cases hv'
    refine h u hu v hv ?_ a ha (hab ▸ hb)
    rintro rfl
    -- one position is that of one variable only
    obtain ⟨z, hz, rfl⟩ := getElem?_of_position hxu
    obtain ⟨z', hz', rfl⟩ := getElem?_of_position hyv
    rw [hz] at hz'
    cases hz'
    exact hxy rfl

/-- **A complete selection agrees exactly if its assignment satisfies every addition.** -/
theorem agrees_iff_satisfiedBy {p : Problem ι δ} {vars : List (Variable ι δ)}
    {additions : List (Addition ι δ)} (hp : p.Records vars additions) {s : Selection}
    (hlen : s.length = p.vars.length)
    (hlt : ∀ v i : Nat, s[v]? = some (some i) → i < (p.domain v).length)
    (hcomplete : p.IsComplete s) :
    p.Agrees s ↔ ∀ a ∈ additions, a.SatisfiedBy (p.assignment s) := by
  constructor
  · intro h a ha
    cases a with
    | constraint c =>
      obtain ⟨pc, hpc, rfl⟩ := hp.exists_placed c ha
      obtain ⟨-, hl, hr⟩ := hp.of_mem_constraints pc hpc
      obtain ⟨x, hx⟩ := exists_value (position_lt hl) hlt hcomplete
      obtain ⟨y, hy⟩ := exists_value (position_lt hr) hlt hcomplete
      exact ⟨x, y, (mem_assignment_iff hp).mpr ⟨_, hl, hx⟩, (mem_assignment_iff hp).mpr ⟨_, hr, hy⟩,
        h.holds pc hpc x y hx hy⟩
    | allDistinct ids =>
      obtain ⟨g, hg, hpos⟩ := hp.exists_group ids ha
      exact (satisfiedBy_allDistinct_iff hp hpos).mpr (h.ne g hg)
  · intro h
    refine ⟨hlen, hlt, fun pc hpc x y hx hy => ?_, fun g hg => ?_⟩
    · obtain ⟨hmem, hl, hr⟩ := hp.of_mem_constraints pc hpc
      obtain ⟨a, b, ha, hb, hholds⟩ := h _ hmem
      -- the positions of the two variables, and with them their values, are unique
      obtain ⟨l, hl', ha⟩ := (mem_assignment_iff hp).mp ha
      obtain ⟨r, hr', hb⟩ := (mem_assignment_iff hp).mp hb
      rw [hl] at hl'
      rw [hr] at hr'
      cases hl'
      cases hr'
      rw [hx] at ha
      rw [hy] at hb
      cases ha
      cases hb
      exact hholds
    · obtain ⟨ids, hmem, hpos⟩ := hp.of_mem_groups g hg
      exact (satisfiedBy_allDistinct_iff hp hpos).mp (h _ hmem)

/-! ## The solver -/

variable [DecidableEq δ]

/-- The solutions are the choices whose assignments satisfy every addition. -/
theorem mem_solutions_iff_exists_choice {p : Problem ι δ} {vars : List (Variable ι δ)}
    {additions : List (Addition ι δ)} (h : build vars additions = .ok p) {s : Selection} :
    s ∈ p.solutions ↔ ∃ choice, IsChoice vars choice ∧
      (∀ a ∈ additions, a.SatisfiedBy (assignmentOf vars choice)) ∧ s = choice.map some := by
  obtain ⟨hindexed, hrecords⟩ := build_invariant h
  rw [mem_solutions_iff hindexed, ← hrecords.vars_eq]
  constructor
  · rintro ⟨hagree, hcomplete⟩
    have hsat := (agrees_iff_satisfiedBy hrecords hagree.length_eq hagree.lt_length hcomplete).mp
      hagree
    obtain ⟨choice, hchoice, rfl⟩ :=
      (isComplete_iff_exists_choice hagree.length_eq hagree.lt_length).mp hcomplete
    rw [assignment_map_some] at hsat
    exact ⟨choice, hchoice, hsat, rfl⟩
  · rintro ⟨choice, hchoice, hsat, rfl⟩
    have hlen : (choice.map some).length = p.vars.length := by simp [hchoice.length_eq]
    have hlt : ∀ v i : Nat, (choice.map some)[v]? = some (some i) → i < (p.domain v).length := by
      intro v i hi
      rw [List.getElem?_map, Option.map_eq_some_iff] at hi
      obtain ⟨j, hj, hji⟩ := hi
      cases hji
      obtain ⟨hv, rfl⟩ := List.getElem?_eq_some_iff.mp hj
      have hvars : v < p.vars.length := hchoice.length_eq ▸ hv
      have hbound := (List.forall₂_iff_get.mp hchoice).2 v hvars hv
      simpa [domain, List.getElem?_eq_getElem hvars] using hbound
    have hcomplete := (isComplete_iff_exists_choice hlen hlt).mpr ⟨choice, hchoice, rfl⟩
    refine ⟨(agrees_iff_satisfiedBy hrecords hlen hlt hcomplete).mpr ?_, hcomplete⟩
    rwa [assignment_map_some]

/-- The solver's assignments, where choices do not matter: those with values of the domains that
satisfy every addition. -/
theorem mem_solveAll_iff {p : Problem ι δ} {vars : List (Variable ι δ)}
    {additions : List (Addition ι δ)} (h : build vars additions = .ok p) {A : Assignment ι δ} :
    A ∈ p.solveAll ↔ IsValued vars A ∧ ∀ a ∈ additions, a.SatisfiedBy A := by
  have hvars := (build_invariant h).2.vars_eq
  rw [solveAll, List.mem_map, isValued_iff_exists_choice]
  constructor
  · rintro ⟨s, hs, rfl⟩
    obtain ⟨choice, hchoice, hsat, rfl⟩ := (mem_solutions_iff_exists_choice h).mp hs
    rw [assignment_map_some, hvars]
    exact ⟨⟨choice, hchoice, rfl⟩, hsat⟩
  · rintro ⟨⟨choice, hchoice, rfl⟩, hsat⟩
    refine ⟨choice.map some, (mem_solutions_iff_exists_choice h).mpr ⟨choice, hchoice, hsat, rfl⟩, ?_⟩
    rw [assignment_map_some, hvars]

/-- Where no domain repeats a value, the solver lists no assignment twice. -/
theorem nodup_solveAll {p : Problem ι δ} {vars : List (Variable ι δ)}
    {additions : List (Addition ι δ)} (h : build vars additions = .ok p)
    (hdom : ∀ x ∈ vars, x.domain.Nodup) : p.solveAll.Nodup := by
  obtain ⟨hindexed, hrecords⟩ := build_invariant h
  refine (nodup_solutions hindexed).map_on fun s hs s' hs' heq => ?_
  obtain ⟨choice, hchoice, -, rfl⟩ := (mem_solutions_iff_exists_choice h).mp hs
  obtain ⟨choice', hchoice', -, rfl⟩ := (mem_solutions_iff_exists_choice h).mp hs'
  rw [assignment_map_some, assignment_map_some, hrecords.vars_eq] at heq
  rw [assignmentOf_inj hdom hchoice hchoice' heq]

/-- **The solver lists exactly the satisfying assignments**, one for every choice of positions in the
domains that describes it: choices with the same values count apart. -/
theorem solveAll_eq_map_assignmentOf {p : Problem ι δ} {vars : List (Variable ι δ)}
    {additions : List (Addition ι δ)} (h : build vars additions = .ok p) :
    ∃ choices : List (List Nat), choices.Nodup ∧
      (∀ choice, choice ∈ choices ↔ IsChoice vars choice ∧
        ∀ a ∈ additions, a.SatisfiedBy (assignmentOf vars choice)) ∧
      p.solveAll = choices.map (assignmentOf vars) := by
  obtain ⟨hindexed, hrecords⟩ := build_invariant h
  have hback : ∀ choice : List Nat, (choice.map some).map (·.getD 0) = choice := by
    intro choice
    rw [List.map_map]
    exact List.map_id _
  -- every solution is a choice with all of its entries bound
  refine ⟨p.solutions.map (·.map (·.getD 0)), ?_, ?_, ?_⟩
  · refine (nodup_solutions hindexed).map_on fun s hs s' hs' heq => ?_
    obtain ⟨choice, -, -, rfl⟩ := (mem_solutions_iff_exists_choice h).mp hs
    obtain ⟨choice', -, -, rfl⟩ := (mem_solutions_iff_exists_choice h).mp hs'
    rw [hback, hback] at heq
    rw [heq]
  · intro choice
    rw [List.mem_map]
    constructor
    · rintro ⟨s, hs, rfl⟩
      obtain ⟨choice, hchoice, hsat, rfl⟩ := (mem_solutions_iff_exists_choice h).mp hs
      rw [hback]
      exact ⟨hchoice, hsat⟩
    · rintro ⟨hchoice, hsat⟩
      exact ⟨choice.map some,
        (mem_solutions_iff_exists_choice h).mpr ⟨choice, hchoice, hsat, rfl⟩, hback choice⟩
  · rw [solveAll, List.map_map]
    refine List.map_congr_left fun s hs => ?_
    obtain ⟨choice, -, -, rfl⟩ := (mem_solutions_iff_exists_choice h).mp hs
    rw [assignment_map_some, hrecords.vars_eq, Function.comp_apply, hback]

/-- Two positions that hold one value make two choices: `x` is bound to either `2` below `y`. -/
theorem solveAll_eq_map_assignmentOf_repeated_value :
    ∃ p, build [⟨'x', [1, 2, 2]⟩, ⟨'y', [2, 3]⟩]
        [.constraint ⟨'x', 'y', fun a b => a < b⟩, .allDistinct ['y', 'x', 'y']] = .ok p ∧
      ∃ choices : List (List Nat), choices.Nodup ∧ [1, 1] ∈ choices ∧ [2, 1] ∈ choices ∧
        [1, 0] ∉ choices ∧
        p.solveAll = choices.map (assignmentOf [⟨'x', [1, 2, 2]⟩, ⟨'y', [2, 3]⟩]) := by
  obtain ⟨p, hp⟩ : ∃ p, build [⟨'x', [1, 2, 2]⟩, ⟨'y', [2, 3]⟩]
      [.constraint ⟨'x', 'y', fun a b => a < b⟩, .allDistinct ['y', 'x', 'y']] = .ok p := ⟨_, rfl⟩
  obtain ⟨choices, hnodup, hmem, heq⟩ := solveAll_eq_map_assignmentOf hp
  refine ⟨p, hp, choices, hnodup, (hmem _).mpr ⟨?_, ?_⟩, (hmem _).mpr ⟨?_, ?_⟩, fun h => ?_, heq⟩
  · simp [IsChoice]
  · simp [Addition.SatisfiedBy, assignmentOf]
  · simp [IsChoice]
  · simp [Addition.SatisfiedBy, assignmentOf]
  · have hsat := ((hmem _).mp h).2
    simp [Addition.SatisfiedBy, assignmentOf] at hsat

end Problem

end GraphHom
