import GraphHom.Proofs.Constraint.Index

/-!
# Calls on a problem

A problem in use is one object that calls change in place: the identifiers are looked up first, one after
the other, then the number of the constraint or the group is entered for one variable after the other,
and at last the constraint or the group itself is stored. A call can end in an error at any identifier,
and then the problem stays as the call has left it; the caller may catch the error and go on.

* `Problem.run_call` — **the step**: a call that ends in an error has changed nothing, and any other makes
  its addition;
* `Problem.add_eq_error_iff` — an addition is refused at the first identifier that is not declared;
* `Problem.build_afterCalls` — **the run**: after any calls the problem is the one built from those of them
  that name declared variables only.
-/

namespace GraphHom

variable {ι δ : Type}

namespace Problem

variable [DecidableEq ι] {p q : Problem ι δ} {vars : List (Variable ι δ)} {x : ι} {v n : Nat}

/-! ## Calls -/

/-- Looks up the position of a variable. -/
def lookUp (x : ι) : EStateM (Error ι) (Problem ι δ) Nat := do
  match (← get).vars.findIdx? (·.id = x) with
  | some v => return v
  | none => throw (.undeclaredVariable x)

/-- Appends `n` to the numbers of the constraints on the variable at position `v`. -/
def enterConstraint (n v : Nat) : EStateM (Error ι) (Problem ι δ) Unit :=
  modify fun p => { p with constraintIndex := p.constraintIndex.modify v (· ++ [n]) }

/-- Appends `n` to the numbers of the groups of the variable at position `v`. -/
def enterGroup (n v : Nat) : EStateM (Error ι) (Problem ι δ) Unit :=
  modify fun p => { p with groupIndex := p.groupIndex.modify v (· ++ [n]) }

/-- Stores a constraint whose variables stand at positions `lhs` and `rhs`. -/
def storeConstraint (c : Constraint ι δ) (lhs rhs : Nat) : EStateM (Error ι) (Problem ι δ) Unit := do
  let n := (← get).constraints.length
  enterConstraint n lhs
  if rhs ≠ lhs then enterConstraint n rhs
  modify fun p => { p with constraints := p.constraints ++ [⟨c, lhs, rhs⟩] }

/-- Stores a group of variables. -/
def storeGroup (members : List Nat) : EStateM (Error ι) (Problem ι δ) Unit := do
  let n := (← get).groups.length
  members.forM (enterGroup n)
  modify fun p => { p with groups := p.groups ++ [members] }

/-- Adds a constraint in place. -/
def callConstraint (c : Constraint ι δ) : EStateM (Error ι) (Problem ι δ) Unit := do
  let lhs ← lookUp c.lhs
  let rhs ← lookUp c.rhs
  storeConstraint c lhs rhs

/-- Adds a group in place. -/
def callAllDistinct (ids : List ι) : EStateM (Error ι) (Problem ι δ) Unit := do
  let members ← ids.mapM lookUp
  storeGroup members

/-- Makes an addition in place. -/
def call : Addition ι δ → EStateM (Error ι) (Problem ι δ) Unit
  | .constraint c => callConstraint c
  | .allDistinct ids => callAllDistinct ids

/-- The problem after a call, whether it has ended in an error or not. -/
def afterCall (p : Problem ι δ) (a : Addition ι δ) : Problem ι δ :=
  match (call a).run p with
  | .ok _ q => q
  | .error _ q => q

/-- The problem after several calls, whichever of them have ended in an error. -/
def afterCalls (p : Problem ι δ) (calls : List (Addition ι δ)) : Problem ι δ := calls.foldl afterCall p

/-! ## What a call does -/

/-- How a program ends that reads the problem and changes nothing. -/
def unchanged {α : Type} (p : Problem ι δ) :
    Except (Error ι) α → EStateM.Result (Error ι) (Problem ι δ) α
  | .ok a => .ok a p
  | .error e => .error e p

theorem run_lookUp : (lookUp x).run p = p.unchanged (p.position x) := by
  unfold position
  simp only [lookUp, EStateM.run_bind, EStateM.run_get]
  cases p.vars.findIdx? (·.id = x) with
  | none => rfl
  | some v => rfl

theorem run_mapM_lookUp {ids : List ι} :
    (ids.mapM lookUp).run p = p.unchanged (ids.mapM p.position) := by
  induction ids with
  | nil => rfl
  | cons x ids ih =>
    rw [List.mapM_cons, List.mapM_cons, EStateM.run_bind, run_lookUp]
    cases p.position x with
    | error e => rfl
    | ok v =>
      show ((ids.mapM lookUp >>= fun vs => pure (v :: vs)).run p) = _
      rw [EStateM.run_bind, ih]
      cases ids.mapM p.position with
      | error e => rfl
      | ok vs => rfl

omit [DecidableEq ι] in
theorem run_storeConstraint {c : Constraint ι δ} {l r : Nat} : (storeConstraint c l r).run p =
    .ok () { p with
      constraints := p.constraints ++ [⟨c, l, r⟩]
      constraintIndex := enterAt p.constraintIndex p.constraints.length
        (if r = l then [l] else [l, r]) } := by
  unfold storeConstraint
  by_cases hrl : r = l
  · rw [if_pos hrl]
    simp only [if_neg (not_not.mpr hrl)]
    rfl
  · rw [if_neg hrl]
    simp only [if_pos hrl]
    rfl

omit [DecidableEq ι] in
/-- Entering a number for one variable after the other is entering it at all of their positions. -/
theorem run_forM_enterGroup {members : List Nat} :
    (members.forM (enterGroup n)).run p =
      .ok () { p with groupIndex := enterAt p.groupIndex n members } := by
  induction members generalizing p with
  | nil => rfl
  | cons v members ih => exact ih

omit [DecidableEq ι] in
theorem run_storeGroup {members : List Nat} : (storeGroup members).run p =
    .ok () { p with
      groups := p.groups ++ [members]
      groupIndex := enterAt p.groupIndex p.groups.length members } := by
  show ((members.forM (enterGroup p.groups.length)) >>= fun _ => _).run p = _
  rw [EStateM.run_bind, run_forM_enterGroup]
  rfl

/-- **The step.** A call either makes its addition, or ends in an error and leaves the problem as it
was. -/
theorem run_call {a : Addition ι δ} : (call a).run p =
    match p.add a with
    | .ok q => .ok () q
    | .error e => .error e p := by
  cases a with
  | constraint c =>
    show (lookUp c.lhs >>= fun l => lookUp c.rhs >>= storeConstraint c l).run p = _
    rw [EStateM.run_bind, run_lookUp]
    simp only [add, addConstraint]
    cases p.position c.lhs with
    | error e => rfl
    | ok l =>
      show (lookUp c.rhs >>= storeConstraint c l).run p = _
      rw [EStateM.run_bind, run_lookUp]
      cases p.position c.rhs with
      | error e => rfl
      | ok r => exact run_storeConstraint
  | allDistinct ids =>
    show (ids.mapM lookUp >>= storeGroup).run p = _
    rw [EStateM.run_bind, run_mapM_lookUp]
    simp only [add, addAllDistinct]
    cases ids.mapM p.position with
    | error e => rfl
    | ok members => exact run_storeGroup

/-! ## Which calls end in an error -/

/-- The identifiers that an addition names are declared. -/
def IsDeclared (vars : List (Variable ι δ)) (a : Addition ι δ) : Prop :=
  ∀ x ∈ a.ids, ∃ y ∈ vars, y.id = x

instance : DecidablePred (IsDeclared vars) := fun a =>
  inferInstanceAs (Decidable (∀ x ∈ a.ids, ∃ y ∈ vars, y.id = x))

theorem position_eq_error_iff {e : Error ι} :
    p.position x = .error e ↔ (¬∃ y ∈ p.vars, y.id = x) ∧ e = .undeclaredVariable x := by
  constructor
  · intro h
    refine ⟨fun hx => ?_, ?_⟩
    · obtain ⟨v, hv⟩ := exists_position hx
      rw [h] at hv
      cases hv
    · unfold position at h
      split at h
      · cases h
      · exact (Except.error.inj h).symm
  · rintro ⟨hx, rfl⟩
    cases h : p.position x with
    | ok v =>
      obtain ⟨y, hy, hid⟩ := getElem?_of_position h
      exact absurd ⟨y, List.mem_of_getElem? hy, hid⟩ hx
    | error e =>
      unfold position at h
      split at h
      · cases h
      · exact h.symm

theorem bind_eq_error_iff {ε α β : Type} {x : Except ε α} {f : α → Except ε β} {e : ε} :
    x >>= f = .error e ↔ x = .error e ∨ ∃ a, x = .ok a ∧ f a = .error e := by
  cases x with
  | error e' => simp [bind, Except.bind]
  | ok a => simp [bind, Except.bind]

/-- A chain of lookups ends in an error at the first one that does. -/
theorem mapM_eq_error_iff {ε α β : Type} {f : α → Except ε β} {l : List α} {e : ε} :
    l.mapM f = .error e ↔ ∃ before a after, l = before ++ a :: after ∧
      (∀ b ∈ before, ∃ c, f b = .ok c) ∧ f a = .error e := by
  induction l with
  | nil => simp [pure, Except.pure]
  | cons b l ih =>
    rw [List.mapM_cons, bind_eq_error_iff]
    constructor
    · rintro (hb | ⟨c, hc, h⟩)
      · exact ⟨[], b, l, rfl, by simp, hb⟩
      · rcases bind_eq_error_iff.mp h with h | ⟨cs, -, h⟩
        · obtain ⟨before, a, after, rfl, hok, ha⟩ := ih.mp h
          exact ⟨b :: before, a, after, rfl, List.forall_mem_cons.mpr ⟨⟨c, hc⟩, hok⟩, ha⟩
        · cases h
    · rintro ⟨before, a, after, heq, hok, ha⟩
      cases before with
      | nil =>
        cases heq
        exact .inl ha
      | cons b' before =>
        cases heq
        obtain ⟨⟨c, hc⟩, hok⟩ := List.forall_mem_cons.mp hok
        exact .inr ⟨c, hc, bind_eq_error_iff.mpr (.inl (ih.mpr ⟨before, a, after, rfl, hok, ha⟩))⟩

/-- An addition looks up the identifiers it names in their order, and nothing else can go wrong. -/
theorem add_eq_error_iff_mapM {a : Addition ι δ} {e : Error ι} :
    p.add a = .error e ↔ a.ids.mapM p.position = .error e := by
  cases a with
  | constraint c =>
    show p.addConstraint c = _ ↔ [c.lhs, c.rhs].mapM p.position = _
    simp only [addConstraint, List.mapM_cons, List.mapM_nil, bind_eq_error_iff]
    simp [pure, Except.pure]
  | allDistinct ids =>
    show p.addAllDistinct ids = _ ↔ ids.mapM p.position = _
    simp only [addAllDistinct, bind_eq_error_iff]
    simp [pure, Except.pure]

theorem exists_position_iff : (∃ v, p.position x = .ok v) ↔ ∃ y ∈ p.vars, y.id = x := by
  constructor
  · rintro ⟨v, hv⟩
    obtain ⟨y, hy, hid⟩ := getElem?_of_position hv
    exact ⟨y, List.mem_of_getElem? hy, hid⟩
  · exact exists_position

/-- An addition is refused at the first identifier it names that is not declared. -/
theorem add_eq_error_iff {a : Addition ι δ} {e : Error ι} :
    p.add a = .error e ↔ ∃ before x after, a.ids = before ++ x :: after ∧
      (∀ y ∈ before, ∃ z ∈ p.vars, z.id = y) ∧ (¬∃ z ∈ p.vars, z.id = x) ∧
      e = .undeclaredVariable x := by
  rw [add_eq_error_iff_mapM, mapM_eq_error_iff]
  simp only [exists_position_iff, position_eq_error_iff]

/-- An addition that is not refused names declared variables only. -/
theorem isDeclared_of_add {a : Addition ι δ} (h : p.add a = .ok q) : IsDeclared p.vars a := by
  intro x hx
  cases hg : a.ids.mapM p.position with
  | error e =>
    rw [add_eq_error_iff_mapM.mpr hg] at h
    cases h
  | ok g =>
    obtain ⟨v, -, hv⟩ := exists_mem_of_mapM_left hg hx
    exact exists_position_iff.mp ⟨v, hv⟩

/-! ## After several calls -/

theorem afterCall_of_add_eq_ok {a : Addition ι δ} (h : p.add a = .ok q) : p.afterCall a = q := by
  unfold afterCall
  rw [run_call, h]

theorem afterCall_of_add_eq_error {a : Addition ι δ} {e : Error ι} (h : p.add a = .error e) :
    p.afterCall a = p := by
  unfold afterCall
  rw [run_call, h]

/-- The calls that are not refused make their additions one after the other; the others might as well not
have been made. -/
theorem foldlM_add_afterCalls {calls : List (Addition ι δ)} (h : p.vars = vars) :
    (calls.filter (IsDeclared vars)).foldlM add p = .ok (p.afterCalls calls) := by
  induction calls generalizing p with
  | nil => rfl
  | cons a calls ih =>
    show _ = Except.ok ((p.afterCall a).afterCalls calls)
    by_cases ha : IsDeclared vars a
    · obtain ⟨q, hq, hvars⟩ := exists_add (p := p) (h ▸ ha)
      rw [List.filter_cons_of_pos (by simpa using ha), afterCall_of_add_eq_ok hq]
      exact bind_eq_ok_iff.mpr ⟨q, hq, ih (hvars.trans h)⟩
    · rw [List.filter_cons_of_neg (by simpa using ha)]
      cases hadd : p.add a with
      | ok q => exact absurd (h ▸ isDeclared_of_add hadd) ha
      | error e =>
        rw [afterCall_of_add_eq_error hadd]
        exact ih h

/-- **The run.** After any calls the problem is the one that is built from those of them that name declared
variables only. -/
theorem build_afterCalls (h : ofVariables vars = .ok p) (calls : List (Addition ι δ)) :
    build vars (calls.filter (IsDeclared vars)) = .ok (p.afterCalls calls) := by
  have hvars : p.vars = vars := (ofVariables_records h).vars_eq
  exact bind_eq_ok_iff.mpr ⟨p, h, foldlM_add_afterCalls hvars⟩

end Problem

end GraphHom
