import GraphHom.Proofs.Constraint.Solutions

/-!
# Selecting a variable

Before every step the search scans the open variables for one with the fewest candidates. The scan keeps
the best variable so far under a strict comparison, and leaves off at a variable without candidates.

* `Problem.mem_candidates_iff_isConsistentAt` — candidates are the positions of the domain that violate
  nothing once the variable is bound to them;
* `Problem.Finds.keepFewer` — **the step**: one more variable keeps what a scan has found so far;
* `Problem.finds_selectFrom`, `Problem.finds_scanAll` — **the run**: a scan finds the variable with the
  fewest candidates, the earliest of several, whether it may leave off early or not.

There is only one such variable (`Problem.Finds.unique`), so leaving off early changes nothing.
-/

namespace GraphHom

variable {ι δ : Type}

namespace Problem

variable {p : Problem ι δ} {sel : Selection} {v w i : Nat} {vs rest : List Nat}

/-! ## Open variables -/

/-- The variable at position `v` is on a side of some constraint or in some group. -/
def TakesPart (p : Problem ι δ) (v : Nat) : Prop :=
  (∃ c ∈ p.constraints, c.lhsAt = v ∨ c.rhsAt = v) ∨ ∃ g ∈ p.groups, v ∈ g

/-- A variable that is not bound, and takes part in something. -/
structure IsOpen (p : Problem ι δ) (sel : Selection) (v : Nat) : Prop where
  /-- It is a variable of the problem. -/
  lt_length : v < p.vars.length
  /-- It is not bound. -/
  unbound : sel[v]? = some none
  /-- It takes part in something. -/
  takesPart : p.TakesPart v

theorem isIsolated_eq_false_iff (hp : p.Indexed) (hv : v < p.vars.length) :
    p.isIsolated v = false ↔ p.TakesPart v := by
  have hnot : p.isIsolated v = true ↔ ¬p.TakesPart v := by
    rw [isIsolated_eq_true_iff hp hv]
    simp only [TakesPart, not_or, not_exists, not_and]
  rw [← Bool.not_eq_true, hnot, not_not]

theorem mem_openVariables_iff_isOpen (hp : p.Indexed) :
    v ∈ p.openVariables sel ↔ p.IsOpen sel v := by
  rw [mem_openVariables_iff]
  constructor
  · rintro ⟨hv, hunbound, hniso⟩
    exact ⟨hv, hunbound, (isIsolated_eq_false_iff hp hv).mp hniso⟩
  · rintro ⟨hv, hunbound, hpart⟩
    exact ⟨hv, hunbound, (isIsolated_eq_false_iff hp hv).mpr hpart⟩

theorem pairwise_openVariables : (p.openVariables sel).Pairwise (· < ·) :=
  List.pairwise_lt_range.filter _

/-! ## Candidates -/

/-- With the variable at position `v` bound to the position `i` of its domain, no constraint on it is
violated as far as the other side is bound, and no other variable of a group with it has its value. -/
structure IsConsistentAt (p : Problem ι δ) (sel : Selection) (v i : Nat) : Prop where
  /-- There is a value at this position. -/
  lt_length : i < (p.domain v).length
  /-- A constraint on the variable holds if both of its sides are bound now. -/
  holds : ∀ c ∈ p.constraints, c.lhsAt = v ∨ c.rhsAt = v →
    ∀ a b, p.value (sel.set v (some i)) c.lhsAt = some a →
      p.value (sel.set v (some i)) c.rhsAt = some b → c.constraint.holds a b = true
  /-- The other variables of its groups have other values, or none. -/
  ne : ∀ g ∈ p.groups, v ∈ g → ∀ u ∈ g, u ≠ v → p.value sel u ≠ (p.domain v)[i]?

section Candidates

variable [DecidableEq δ]

theorem mem_candidates_iff_isConsistentAt (hp : p.Indexed) (hsel : sel.length = p.vars.length)
    (hv : v < p.vars.length) : i ∈ p.candidates sel v ↔ p.IsConsistentAt sel v i := by
  have hlt : v < sel.length := hsel ▸ hv
  rw [mem_candidates_iff]
  constructor
  · rintro ⟨d, hd, hcon⟩
    obtain ⟨hconstraints, hgroups⟩ := (consistent_iff hp hv).mp hcon
    refine ⟨(List.getElem?_eq_some_iff.mp hd).1, fun c hc hside => ?_, ?_⟩
    · exact (allows_iff hlt hd hside).mp (hconstraints c hc hside)
    · rw [hd]
      exact hgroups
  · intro h
    obtain ⟨d, hd⟩ : ∃ d, (p.domain v)[i]? = some d := ⟨_, List.getElem?_eq_getElem h.lt_length⟩
    refine ⟨d, hd, (consistent_iff hp hv).mpr ⟨fun c hc hside => ?_, ?_⟩⟩
    · exact (allows_iff hlt hd hside).mpr (h.holds c hc hside)
    · rw [← hd]
      exact h.ne

/-! ## What a scan finds -/

/-- Of the variables `vs`, the one at position `v` has the fewest candidates, and those before it have
more. -/
structure HasFewest (p : Problem ι δ) (sel : Selection) (vs : List Nat) (v : Nat) : Prop where
  /-- It is one of them. -/
  mem : v ∈ vs
  /-- None has fewer candidates. -/
  length_le : ∀ w ∈ vs, (p.candidates sel v).length ≤ (p.candidates sel w).length
  /-- None before it has as few. -/
  length_lt : ∀ w ∈ vs, w < v → (p.candidates sel v).length < (p.candidates sel w).length

/-- What there is to be found among the variables `vs`: the one with the fewest candidates, with these
candidates. -/
def Finds (p : Problem ι δ) (sel : Selection) (vs : List Nat) : Option (Nat × List Nat) → Prop
  | none => vs = []
  | some (v, cs) => cs = p.candidates sel v ∧ p.HasFewest sel vs v

variable {best best' : Option (Nat × List Nat)}

theorem HasFewest.unique (h : p.HasFewest sel vs v) (h' : p.HasFewest sel vs w) : v = w := by
  have hle := h.length_le w h'.mem
  have hle' := h'.length_le v h.mem
  rcases Nat.lt_trichotomy v w with hlt | heq | hlt
  · have := h'.length_lt v h.mem hlt
    omega
  · exact heq
  · have := h.length_lt w h'.mem hlt
    omega

/-- There is one thing to be found. -/
theorem Finds.unique (h : p.Finds sel vs best) (h' : p.Finds sel vs best') : best = best' := by
  match best, best' with
  | none, none => rfl
  | none, some (v, cs) =>
    have hmem := h'.2.mem
    rw [h] at hmem
    cases hmem
  | some (v, cs), none =>
    have hmem := h.2.mem
    rw [h'] at hmem
    cases hmem
  | some (v, cs), some (w, cs') =>
    obtain ⟨rfl, hv⟩ := h
    obtain ⟨rfl, hw⟩ := h'
    rw [hv.unique hw]

theorem finds_nil : p.Finds sel [] none := rfl

/-! ## One more variable -/

/-- The better of the best variable so far and the next one, which has to have fewer candidates to be
taken. -/
def keepFewer (p : Problem ι δ) (sel : Selection) (best : Option (Nat × List Nat)) (v : Nat) :
    Option (Nat × List Nat) :=
  if best.all fun b => (p.candidates sel v).length < b.2.length then some (v, p.candidates sel v)
  else best

/-- **The step.** The better one is what there is to be found when a later variable is added. -/
theorem Finds.keepFewer (h : p.Finds sel vs best) (hvs : ∀ w ∈ vs, w < v) :
    p.Finds sel (vs ++ [v]) (p.keepFewer sel best v) := by
  unfold Problem.keepFewer
  match best with
  | none =>
    cases h
    refine ⟨rfl, List.mem_cons_self, fun w hw => ?_, fun w hw hlt => ?_⟩
    · cases List.mem_singleton.mp hw
      exact Nat.le_refl _
    · cases List.mem_singleton.mp hw
      exact absurd hlt (Nat.lt_irrefl _)
  | some (b, cs) =>
    obtain ⟨rfl, hb⟩ := h
    have hlast : ∀ w ∈ vs ++ [v], w ∈ vs ∨ w = v := fun w hw => by simpa using hw
    by_cases hfewer : (p.candidates sel v).length < (p.candidates sel b).length
    · -- fewer than the best so far, and so fewer than any before
      have hall : ∀ w ∈ vs, (p.candidates sel v).length < (p.candidates sel w).length :=
        fun w hw => Nat.lt_of_lt_of_le hfewer (hb.length_le w hw)
      rw [if_pos (by simpa using hfewer)]
      refine ⟨rfl, by simp, fun w hw => ?_, fun w hw hlt => ?_⟩
      · rcases hlast w hw with hw | rfl
        · exact Nat.le_of_lt (hall w hw)
        · exact Nat.le_refl _
      · rcases hlast w hw with hw | rfl
        · exact hall w hw
        · exact absurd hlt (Nat.lt_irrefl w)
    · -- not fewer: the best so far stays, as it comes first
      rw [if_neg (by simpa using hfewer)]
      refine ⟨rfl, List.mem_append_left _ hb.mem, fun w hw => ?_, fun w hw hlt => ?_⟩
      · rcases hlast w hw with hw | rfl
        · exact hb.length_le w hw
        · exact Nat.le_of_not_lt hfewer
      · rcases hlast w hw with hw | rfl
        · exact hb.length_lt w hw hlt
        · exact absurd hlt (Nat.lt_asymm (hvs b hb.mem))

/-- A variable without candidates is what there is to be found, whatever comes after it, if those before
it have candidates. -/
theorem hasFewest_of_candidates_eq_nil (hvs : ∀ w ∈ vs, p.candidates sel w ≠ [])
    (hv : p.candidates sel v = []) (hrest : ∀ w ∈ rest, v < w) :
    p.HasFewest sel (vs ++ v :: rest) v where
  mem := by simp
  length_le w _ := by
    rw [hv]
    exact Nat.zero_le _
  length_lt w hw hlt := by
    rw [hv]
    rcases List.mem_append.mp hw with hw | hw
    · exact List.length_pos_iff.mpr (hvs w hw)
    · rcases List.mem_cons.mp hw with rfl | hw
      · exact absurd hlt (Nat.lt_irrefl w)
      · exact absurd hlt (Nat.lt_asymm (hrest w hw))

/-! ## The whole scan -/

/-- Goes through all open variables and never leaves off early. -/
def scanAll (p : Problem ι δ) (sel : Selection) : Option (Nat × List Nat) :=
  (p.openVariables sel).foldl (p.keepFewer sel) none

theorem finds_foldl_keepFewer (h : p.Finds sel vs best) (hasc : (vs ++ rest).Pairwise (· < ·)) :
    p.Finds sel (vs ++ rest) (rest.foldl (p.keepFewer sel) best) := by
  induction rest generalizing vs best with
  | nil => rwa [List.append_nil]
  | cons v rest ih =>
    rw [List.append_cons] at hasc ⊢
    rw [List.foldl_cons]
    refine ih (h.keepFewer fun w hw => ?_) hasc
    exact (List.pairwise_append.mp (List.pairwise_append.mp hasc).1).2.2 w hw v List.mem_cons_self

theorem finds_scanAll : p.Finds sel (p.openVariables sel) (p.scanAll sel) :=
  finds_foldl_keepFewer finds_nil pairwise_openVariables

/-- **The run.** As long as the variables gone through have candidates, the scan goes on like one that
never leaves off; at the first variable without candidates it has found what there is to be found. -/
theorem finds_selectFrom (h : p.Finds sel vs best) (hvs : ∀ w ∈ vs, p.candidates sel w ≠ [])
    (hasc : (vs ++ rest).Pairwise (· < ·)) :
    p.Finds sel (vs ++ rest) (p.selectFrom sel best rest) := by
  induction rest generalizing vs best with
  | nil => rwa [List.append_nil]
  | cons v rest ih =>
    have hlt : ∀ w ∈ vs, w < v := fun w hw =>
      (List.pairwise_append.mp hasc).2.2 w hw v List.mem_cons_self
    have hrest : ∀ w ∈ rest, v < w :=
      (List.pairwise_cons.mp (List.pairwise_append.mp hasc).2.1).1
    rw [selectFrom]
    by_cases hv : p.candidates sel v = []
    · rw [if_pos (List.isEmpty_iff.mpr hv)]
      exact ⟨rfl, hasFewest_of_candidates_eq_nil hvs hv hrest⟩
    · have hvs' : ∀ w ∈ vs ++ [v], p.candidates sel w ≠ [] := by
        intro w hw
        rcases List.mem_append.mp hw with hw | hw
        · exact hvs w hw
        · rw [List.mem_singleton.mp hw]
          exact hv
      have hstep := ih (h.keepFewer hlt) hvs' (List.append_cons .. ▸ hasc)
      rw [if_neg fun hempty => hv (List.isEmpty_iff.mp hempty), List.append_cons]
      -- both branches go on from the better of the two
      unfold keepFewer at hstep
      split at hstep
      · rename_i hfewer
        rw [if_pos hfewer]
        exact hstep
      · rename_i hfewer
        rw [if_neg hfewer]
        exact hstep

theorem finds_select : p.Finds sel (p.openVariables sel) (p.select sel) :=
  finds_selectFrom finds_nil (fun w hw => by cases hw) pairwise_openVariables

/-- **What is selected.** Candidates are all positions of the domain that are consistent with what is
bound, in ascending order. Nothing is selected exactly if every variable that takes part in something is
bound; otherwise the variable selected is the open one with the fewest candidates, the earliest of
several, and it comes with all of them. That the scan leaves off at a variable without candidates makes
no difference. -/
theorem select_fewest_candidates [DecidableEq ι] {vars : List (Variable ι δ)}
    {additions : List (Addition ι δ)} (h : build vars additions = .ok p)
    (hsel : sel.length = vars.length) :
    (∀ v < vars.length, (p.candidates sel v).Pairwise (· < ·) ∧
      ∀ i, i ∈ p.candidates sel v ↔ p.IsConsistentAt sel v i) ∧
    (p.select sel = none ↔
      ∀ v < vars.length, p.TakesPart v → ∃ i, sel[v]? = some (some i)) ∧
    (∀ v cs, p.select sel = some (v, cs) ↔
      p.IsOpen sel v ∧ cs = p.candidates sel v ∧
      ∀ w, p.IsOpen sel w → cs.length ≤ (p.candidates sel w).length ∧
        (w < v → cs.length < (p.candidates sel w).length)) ∧
    p.select sel = p.scanAll sel := by
  obtain ⟨hp, hrecords⟩ := build_invariant h
  have hvars := hrecords.vars_eq
  refine ⟨fun v hv => ⟨pairwise_candidates, fun i => ?_⟩, ?_, fun v cs => ?_, ?_⟩
  · exact mem_candidates_iff_isConsistentAt hp (hvars ▸ hsel) (hvars ▸ hv)
  · rw [select_eq_none_iff, List.eq_nil_iff_forall_not_mem]
    simp only [mem_openVariables_iff_isOpen hp]
    constructor
    · intro hnone v hv hpart
      have hlt : v < sel.length := hsel ▸ hv
      cases hbound : sel[v] with
      | none => exact absurd ⟨hvars ▸ hv, List.getElem?_eq_some_iff.mpr ⟨hlt, hbound⟩, hpart⟩ (hnone v)
      | some i => exact ⟨i, List.getElem?_eq_some_iff.mpr ⟨hlt, hbound⟩⟩
    · rintro hbound v ⟨hv, hunbound, hpart⟩
      obtain ⟨i, hi⟩ := hbound v (hvars ▸ hv) hpart
      rw [hunbound] at hi
      cases hi
  · have hfinds : p.Finds sel (p.openVariables sel) (p.select sel) := finds_select
    simp only [← mem_openVariables_iff_isOpen hp]
    constructor
    · intro hselect
      rw [hselect] at hfinds
      obtain ⟨rfl, hv⟩ := hfinds
      exact ⟨hv.mem, rfl, fun w hw => ⟨hv.length_le w hw, hv.length_lt w hw⟩⟩
    · rintro ⟨hmem, rfl, hleast⟩
      have hv : p.Finds sel (p.openVariables sel) (some (v, p.candidates sel v)) :=
        ⟨rfl, hmem, fun w hw => (hleast w hw).1, fun w hw => (hleast w hw).2⟩
      exact hfinds.unique hv
  · exact finds_select.unique finds_scanAll

/-- The second variable has no candidates, the first has one, and the last takes part in nothing. -/
theorem select_fewest_candidates_dead_end :
    ∃ p, build [⟨'x', [1, 2]⟩, ⟨'y', [1, 2, 3]⟩, ⟨'z', [1]⟩, ⟨'w', []⟩]
        [.constraint ⟨'x', 'z', fun a b => a ≠ b⟩, .constraint ⟨'y', 'z', fun a b => a < b⟩] = .ok p ∧
      ([none, none, some 0, none] : Selection).length = 4 ∧
      p.select [none, none, some 0, none] = some (1, []) ∧
      p.select [none, none, some 0, none] = p.scanAll [none, none, some 0, none] ∧
      p.IsOpen [none, none, some 0, none] 1 ∧
      p.IsConsistentAt [none, none, some 0, none] 0 1 ∧
      ¬p.IsConsistentAt [none, none, some 0, none] 0 0 ∧
      p.select [some 1, some 2, some 0, none] = none ∧ ¬p.TakesPart 3 := by
  have hbuild : ∃ p, build [⟨'x', [1, 2]⟩, ⟨'y', [1, 2, 3]⟩, ⟨'z', [1]⟩, ⟨'w', []⟩]
      [.constraint ⟨'x', 'z', fun a b => a ≠ b⟩, .constraint ⟨'y', 'z', fun a b => a < b⟩] = .ok p ∧
      p.select [none, none, some 0, none] = some (1, []) ∧
      p.candidates [none, none, some 0, none] 0 = [1] ∧
      p.select [some 1, some 2, some 0, none] = none :=
    ⟨_, rfl, rfl, rfl, rfl⟩
  obtain ⟨p, hp, hselect, hcandidates, hnone⟩ := hbuild
  have hlen : ([none, none, some 0, none] : Selection).length = 4 := rfl
  obtain ⟨hconsistent, -, hfewest, hscan⟩ := select_fewest_candidates hp hlen
  have hlen' : ([some 1, some 2, some 0, none] : Selection).length = 4 := rfl
  obtain ⟨-, hbound, -, -⟩ := select_fewest_candidates hp hlen'
  have hopen : p.IsOpen [none, none, some 0, none] 1 := ((hfewest 1 []).mp hselect).1
  have hx : ∀ i, i ∈ p.candidates [none, none, some 0, none] 0 ↔
      p.IsConsistentAt [none, none, some 0, none] 0 i := (hconsistent 0 (by decide)).2
  rw [hcandidates] at hx
  -- the last variable is not bound, and yet nothing is selected
  have hlast : ¬p.TakesPart 3 := by
    intro hpart
    obtain ⟨i, hi⟩ := hbound.mp hnone 3 (by decide) hpart
    cases hi
  exact ⟨p, hp, hlen, hselect, hscan, hopen, (hx 1).mp (by decide),
    fun hzero => absurd ((hx 0).mpr hzero) (by decide), hnone, hlast⟩

end Candidates

end Problem

end GraphHom
