import GraphHom.Constraint.Solver
import GraphHom.Proofs.Constraint.Index
import Mathlib.Data.List.Nodup

/-!
# The search of a constraint problem

The search binds one variable after another, in an order that differs from branch to branch. What
every selection on its way satisfies is `Problem.Agrees`: the constraints and groups hold as far as
their variables are bound.

* `agrees_set_iff` — **the step**: binding one more variable keeps the invariant exactly if the value
  is consistent;
* `mem_search_iff` — **the run**: the search reaches exactly the selections that extend its start,
  agree, and bind all but the isolated variables;
* `nodup_search` — it reaches none of them twice.
-/

namespace GraphHom

variable {ι δ : Type}

namespace Problem

/-! ## Values of a selection -/

theorem value_eq_some_iff {p : Problem ι δ} {sel : Selection} {v : Nat} {d : δ} :
    p.value sel v = some d ↔ ∃ i, sel[v]? = some (some i) ∧ (p.domain v)[i]? = some d := by
  unfold value
  split
  · rename_i i hi
    simp [hi]
  · rename_i hnone
    exact ⟨fun h => (by cases h), fun ⟨i, hi, _⟩ => absurd hi (hnone i)⟩

theorem value_set_self {p : Problem ι δ} {sel : Selection} {v i : Nat} (hv : v < sel.length) :
    p.value (sel.set v (some i)) v = (p.domain v)[i]? := by
  simp [value, List.getElem?_set_self hv]

theorem value_set_ne {p : Problem ι δ} {sel : Selection} {v w i : Nat} (hne : w ≠ v) :
    p.value (sel.set v (some i)) w = p.value sel w := by
  simp [value, List.getElem?_set_ne hne.symm]

/-! ## The invariant -/

/-- A selection binds variables to positions of their domains, and violates no constraint and no
group both of whose variables are bound. -/
structure Agrees (p : Problem ι δ) (sel : Selection) : Prop where
  /-- There is an entry for every variable. -/
  length_eq : sel.length = p.vars.length
  /-- A variable is bound to a position of its domain. -/
  lt_length : ∀ v i : Nat, sel[v]? = some (some i) → i < (p.domain v).length
  /-- A constraint holds between the values of its variables. -/
  holds : ∀ c ∈ p.constraints, ∀ a b, p.value sel c.lhsAt = some a →
    p.value sel c.rhsAt = some b → c.constraint.holds a b = true
  /-- Two variables of a group have different values. -/
  ne : ∀ g ∈ p.groups, ∀ u ∈ g, ∀ v ∈ g, u ≠ v → ∀ d, p.value sel u = some d →
    p.value sel v ≠ some d

/-- Every variable that `sel` binds is bound to the same position by `ext`. -/
def Extends (ext sel : Selection) : Prop :=
  ∀ v i : Nat, sel[v]? = some (some i) → ext[v]? = some (some i)

theorem Extends.value {p : Problem ι δ} {ext sel : Selection} (h : Extends ext sel) {v : Nat} {d : δ}
    (hd : p.value sel v = some d) : p.value ext v = some d := by
  obtain ⟨i, hi, hd⟩ := value_eq_some_iff.mp hd
  exact value_eq_some_iff.mpr ⟨i, h v i hi, hd⟩

/-- Whatever extends to an agreeing selection agrees. -/
theorem Agrees.of_extends {p : Problem ι δ} {ext sel : Selection} (hext : p.Agrees ext)
    (h : Extends ext sel) (hlen : sel.length = p.vars.length) : p.Agrees sel where
  length_eq := hlen
  lt_length v i hi := hext.lt_length v i (h v i hi)
  holds c hc a b ha hb := hext.holds c hc a b (h.value ha) (h.value hb)
  ne g hg u hu v hv huv d hd hd' := hext.ne g hg u hu v hv huv d (h.value hd) (h.value hd')

theorem getElem?_nothingBound_ne {p : Problem ι δ} {v i : Nat} :
    p.nothingBound[v]? ≠ some (some i) := by
  intro h
  rw [nothingBound, List.getElem?_replicate] at h
  split at h <;> cases h

theorem extends_nothingBound {p : Problem ι δ} {s : Selection} : Extends s p.nothingBound :=
  fun _ _ hi => absurd hi getElem?_nothingBound_ne

theorem agrees_nothingBound {p : Problem ι δ} : p.Agrees p.nothingBound := by
  refine ⟨List.length_replicate, fun v i h => absurd h getElem?_nothingBound_ne, ?_, ?_⟩
  · intro c _ a b ha _
    obtain ⟨i, hi, _⟩ := value_eq_some_iff.mp ha
    exact absurd hi getElem?_nothingBound_ne
  · intro g _ u _ v _ _ d hd
    obtain ⟨i, hi, _⟩ := value_eq_some_iff.mp hd
    exact absurd hi getElem?_nothingBound_ne

/-! ## The step -/

variable [DecidableEq δ]

/-- What the consistency test looks at is all that matters: the indexes miss no constraint and no
group of the variable. -/
theorem consistent_iff {p : Problem ι δ} (hp : p.Indexed) {sel : Selection} {v : Nat} {d : δ}
    (hv : v < p.vars.length) :
    p.consistent sel v d = true ↔
      (∀ c ∈ p.constraints, c.lhsAt = v ∨ c.rhsAt = v → c.allows (p.value sel) v d = true) ∧
      ∀ g ∈ p.groups, v ∈ g → ∀ u ∈ g, u ≠ v → p.value sel u ≠ some d := by
  simp only [consistent, Bool.and_eq_true, List.all_eq_true, hp.constraintsOn_eq hv,
    hp.groupsOf_eq hv]
  -- a number in the index of `v` is that of a constraint on `v`, or of a group with `v`
  refine and_congr ?_ ?_
  · constructor
    · intro h c hc hside
      obtain ⟨n, hn⟩ := List.mem_iff_getElem?.mp hc
      have hall := h n (mem_constraintNumbers_iff.mpr ⟨c, hn, hside⟩)
      simpa [hn] using hall
    · intro h n hn
      obtain ⟨c, hc, hside⟩ := mem_constraintNumbers_iff.mp hn
      simpa [hc] using h c (List.mem_of_getElem? hc) hside
  · constructor
    · intro h g hg hvg u hu huv
      obtain ⟨n, hn⟩ := List.mem_iff_getElem?.mp hg
      have hall := h n (mem_groupNumbers_iff.mpr ⟨g, hn, hvg⟩) u (by simpa [hn] using hu)
      simpa [huv] using hall
    · intro h n hn u hu
      obtain ⟨g, hg, hvg⟩ := mem_groupNumbers_iff.mp hn
      have hug : u ∈ g := by simpa [hg] using hu
      by_cases huv : u = v
      · simp [huv]
      · simpa [huv] using h g (List.mem_of_getElem? hg) hvg u hug huv

omit [DecidableEq δ] in
/-- A constraint on an unbound variable allows a value exactly if it holds once the variable has that
value. -/
theorem allows_iff {p : Problem ι δ} {sel : Selection} {v i : Nat} {d : δ}
    {c : PlacedConstraint ι δ} (hv : v < sel.length) (hd : (p.domain v)[i]? = some d)
    (hside : c.lhsAt = v ∨ c.rhsAt = v) :
    c.allows (p.value sel) v d = true ↔
      ∀ a b, p.value (sel.set v (some i)) c.lhsAt = some a →
        p.value (sel.set v (some i)) c.rhsAt = some b → c.constraint.holds a b = true := by
  have hself : p.value (sel.set v (some i)) v = some d := (value_set_self hv).trans hd
  unfold PlacedConstraint.allows
  by_cases hl : c.lhsAt = v
  · by_cases hr : c.rhsAt = v
    · -- on both sides: the value is tested against itself
      rw [if_pos ⟨hl, hr⟩, hl, hr, hself]
      refine ⟨fun h a b ha hb => ?_, fun h => h d d rfl rfl⟩
      cases ha
      cases hb
      exact h
    · -- on the left only: the other side counts as far as it is bound
      rw [if_neg fun h => hr h.2, if_pos hl, hl, hself, value_set_ne hr]
      cases p.value sel c.rhsAt with
      | none => simp
      | some b => simp
  · have hr : c.rhsAt = v := hside.resolve_left hl
    rw [if_neg fun h => hl h.1, if_neg hl, hr, hself, value_set_ne hl]
    cases p.value sel c.lhsAt with
    | none => simp
    | some a => simp

/-- **The step.** Binding an unbound variable to a value keeps the invariant exactly if the value is
consistent with what is bound already. -/
theorem agrees_set_iff {p : Problem ι δ} (hp : p.Indexed) {sel : Selection} {v i : Nat} {d : δ}
    (hsel : p.Agrees sel) (hv : sel[v]? = some none) (hd : (p.domain v)[i]? = some d) :
    p.Agrees (sel.set v (some i)) ↔ p.consistent sel v d = true := by
  have hlt : v < sel.length := (List.getElem?_eq_some_iff.mp hv).1
  have hself : p.value (sel.set v (some i)) v = some d := (value_set_self hlt).trans hd
  rw [consistent_iff hp (hsel.length_eq ▸ hlt)]
  constructor
  · intro h
    refine ⟨fun c hc hside => (allows_iff hlt hd hside).mpr (h.holds c hc), ?_⟩
    intro g hg hvg u hu huv hud
    exact h.ne g hg v hvg u hu huv.symm d hself (by rw [value_set_ne huv]; exact hud)
  · rintro ⟨hcon, hgrp⟩
    refine ⟨by rw [List.length_set]; exact hsel.length_eq, ?_, ?_, ?_⟩
    · intro w j hj
      by_cases hwv : w = v
      · subst hwv
        rw [List.getElem?_set_self hlt] at hj
        cases hj
        exact (List.getElem?_eq_some_iff.mp hd).1
      · rw [List.getElem?_set_ne (Ne.symm hwv)] at hj
        exact hsel.lt_length w j hj
    · intro c hc
      -- a constraint off `v` does not see the new value
      by_cases hside : c.lhsAt = v ∨ c.rhsAt = v
      · exact (allows_iff hlt hd hside).mp (hcon c hc hside)
      · rw [not_or] at hside
        rw [value_set_ne hside.1, value_set_ne hside.2]
        exact hsel.holds c hc
    · intro g hg u hu w hw huw e he he'
      -- the new value is compared with each member of the group, the old ones differ already
      by_cases huv : u = v
      · subst huv
        rw [hself] at he
        cases he
        rw [value_set_ne huw.symm] at he'
        exact hgrp g hg hu w hw huw.symm he'
      · rw [value_set_ne huv] at he
        by_cases hwv : w = v
        · subst hwv
          rw [hself] at he'
          cases he'
          exact hgrp g hg hw u hu huw he
        · rw [value_set_ne hwv] at he'
          exact hsel.ne g hg u hu w hw huw e he he'

/-! ## The choice of the next variable -/

/-- The positions that are offered for the chosen variable are its candidates. -/
theorem eq_candidates_of_selectFrom {p : Problem ι δ} {sel : Selection}
    {best : Option (Nat × List Nat)} {vs : List Nat} {v : Nat} {cs : List Nat}
    (hbest : ∀ w ws, best = some (w, ws) → ws = p.candidates sel w)
    (h : p.selectFrom sel best vs = some (v, cs)) : cs = p.candidates sel v := by
  induction vs generalizing best with
  | nil => exact hbest v cs h
  | cons w vs ih =>
    simp only [selectFrom] at h
    split at h
    · cases h
      rfl
    · split at h
      · refine ih (fun w' ws hw => ?_) h
        cases hw
        rfl
      · exact ih hbest h

/-- With a best variable so far, or one to look at, some variable is chosen. -/
theorem selectFrom_eq_none_iff {p : Problem ι δ} {sel : Selection}
    {best : Option (Nat × List Nat)} {vs : List Nat} :
    p.selectFrom sel best vs = none ↔ best = none ∧ vs = [] := by
  induction vs generalizing best with
  | nil => simp [selectFrom]
  | cons w vs ih =>
    simp only [selectFrom]
    split
    · simp
    · split
      · simp [ih]
      · rename_i hbest
        rw [ih]
        constructor
        · rintro ⟨rfl, -⟩
          exact absurd rfl hbest
        · rintro ⟨-, hnil⟩
          cases hnil

omit [DecidableEq δ] in
theorem mem_openVariables_iff {p : Problem ι δ} {sel : Selection} {v : Nat} :
    v ∈ p.openVariables sel ↔
      v < p.vars.length ∧ sel[v]? = some none ∧ p.isIsolated v = false := by
  simp [openVariables]

theorem select_eq_none_iff {p : Problem ι δ} {sel : Selection} :
    p.select sel = none ↔ p.openVariables sel = [] := by
  simp [select, selectFrom_eq_none_iff]

theorem mem_candidates_iff {p : Problem ι δ} {sel : Selection} {v i : Nat} :
    i ∈ p.candidates sel v ↔ ∃ d, (p.domain v)[i]? = some d ∧ p.consistent sel v d = true := by
  simp only [candidates, List.mem_filterMap, Prod.exists, List.mem_zipIdx_iff_getElem?]
  constructor
  · rintro ⟨d, j, hd, h⟩
    split at h
    · rename_i hcon
      cases h
      exact ⟨d, hd, hcon⟩
    · cases h
  · rintro ⟨d, hd, hcon⟩
    exact ⟨d, i, hd, if_pos hcon⟩

/-- Candidates are listed in ascending order. -/
theorem pairwise_candidates {p : Problem ι δ} {sel : Selection} {v : Nat} :
    (p.candidates sel v).Pairwise (· < ·) := by
  refine pairwise_filterMap_zipIdx fun x i hi => ?_
  obtain ⟨-, hi⟩ := Option.ite_none_right_eq_some.mp hi
  exact (Option.some.inj hi).symm

theorem nodup_candidates {p : Problem ι δ} {sel : Selection} {v : Nat} :
    (p.candidates sel v).Nodup :=
  pairwise_candidates.imp Nat.ne_of_lt

/-! ## The run -/

theorem search_of_select_eq_none {p : Problem ι δ} {sel : Selection} (h : p.select sel = none) :
    p.search sel = [sel] := by
  rw [search]
  split
  · rfl
  · rename_i hsome
    rw [h] at hsome
    cases hsome

theorem search_of_select_eq_some {p : Problem ι δ} {sel : Selection} {v : Nat} {cs : List Nat}
    (h : p.select sel = some (v, cs)) :
    p.search sel = cs.flatMap fun i => p.search (sel.set v (some i)) := by
  rw [search]
  split
  · rename_i hnone
    rw [h] at hnone
    cases hnone
  · rename_i v' cs' hsome
    rw [h] at hsome
    cases hsome
    rfl

omit [DecidableEq δ] in
/-- Going above a branch is going above the branching point with the branch's value. -/
theorem extends_set_iff {s sel : Selection} {v i : Nat} (hv : sel[v]? = some none) :
    Extends s (sel.set v (some i)) ↔ Extends s sel ∧ s[v]? = some (some i) := by
  have hlt : v < sel.length := (List.getElem?_eq_some_iff.mp hv).1
  constructor
  · intro h
    refine ⟨fun w j hw => h w j ?_, h v i (List.getElem?_set_self hlt)⟩
    rw [List.getElem?_set_ne]
    · exact hw
    · rintro rfl
      rw [hv] at hw
      cases hw
  · rintro ⟨h, hs⟩ w j hw
    by_cases hwv : w = v
    · subst hwv
      rw [List.getElem?_set_self hlt] at hw
      cases hw
      exact hs
    · rw [List.getElem?_set_ne (Ne.symm hwv)] at hw
      exact h w j hw

omit [DecidableEq δ] in
/-- Two selections that agree, one above the other, with the same variables unbound, are equal. -/
theorem eq_of_extends {p : Problem ι δ} {s sel : Selection} (hs : p.Agrees s) (hsel : p.Agrees sel)
    (hext : Extends s sel) (hopen : ∀ v < p.vars.length, sel[v]? = some none → s[v]? = some none) :
    s = sel := by
  apply List.ext_getElem (hs.length_eq.trans hsel.length_eq.symm)
  intro v hvs hv
  have hlt : v < p.vars.length := hsel.length_eq ▸ hv
  have hget : s[v]? = sel[v]? := by
    cases he : sel[v] with
    | none =>
      rw [List.getElem?_eq_getElem hv, he]
      exact hopen v hlt (by rw [List.getElem?_eq_getElem hv, he])
    | some i =>
      rw [List.getElem?_eq_getElem hv, he]
      exact hext v i (by rw [List.getElem?_eq_getElem hv, he])
  rw [List.getElem?_eq_getElem hvs, List.getElem?_eq_getElem hv] at hget
  exact Option.some.inj hget

/-- **The run.** From an agreeing selection that leaves the isolated variables alone, the search
reaches exactly the agreeing selections above it that bind all other variables. No candidate that is
left out, and no branch that is cut for want of candidates, holds such a selection. -/
theorem mem_search_iff {p : Problem ι δ} (hp : p.Indexed) {sel s : Selection} (hsel : p.Agrees sel)
    (hiso : ∀ v < p.vars.length, p.isIsolated v = true → sel[v]? = some none) :
    s ∈ p.search sel ↔ p.Agrees s ∧ Extends s sel ∧
      ∀ v < p.vars.length, s[v]? = some none ↔ p.isIsolated v = true := by
  -- the induction follows the search, so the order in which variables are chosen does not matter
  induction sel using search.induct p with
  | case1 sel hnone =>
    have hopen : ∀ v < p.vars.length, sel[v]? = some none ↔ p.isIsolated v = true := by
      intro v hv
      refine ⟨fun hunbound => ?_, hiso v hv⟩
      by_contra hbound
      have hmem : v ∈ p.openVariables sel :=
        mem_openVariables_iff.mpr ⟨hv, hunbound, by simpa using hbound⟩
      rw [select_eq_none_iff.mp hnone] at hmem
      cases hmem
    rw [search_of_select_eq_none hnone, List.mem_singleton]
    constructor
    · rintro rfl
      exact ⟨hsel, fun _ _ h => h, hopen⟩
    · rintro ⟨hs, hext, hs_open⟩
      exact eq_of_extends hs hsel hext fun v hv h => (hs_open v hv).mpr ((hopen v hv).mp h)
  | case2 sel v cs hsome ih =>
    obtain ⟨hv, hunbound, hniso⟩ := mem_openVariables_iff.mp (mem_openVariables_of_select hsome)
    have hcs : cs = p.candidates sel v :=
      eq_candidates_of_selectFrom (fun _ _ h => (by cases h)) hsome
    -- every branch starts from an agreeing selection, because its value is a candidate
    have hbranch : ∀ i ∈ cs, (s ∈ p.search (sel.set v (some i)) ↔ p.Agrees s ∧
        Extends s (sel.set v (some i)) ∧
        ∀ v < p.vars.length, s[v]? = some none ↔ p.isIsolated v = true) := by
      intro i hi
      obtain ⟨d, hd, hcon⟩ := mem_candidates_iff.mp (hcs ▸ hi)
      refine ih i ((agrees_set_iff hp hsel hunbound hd).mpr hcon) fun w hw hwiso => ?_
      rw [List.getElem?_set_ne]
      · exact hiso w hw hwiso
      · rintro rfl
        rw [hniso] at hwiso
        cases hwiso
    rw [search_of_select_eq_some hsome, List.mem_flatMap]
    constructor
    · rintro ⟨i, hi, hs⟩
      obtain ⟨hagree, hext, hopen⟩ := (hbranch i hi).mp hs
      exact ⟨hagree, ((extends_set_iff hunbound).mp hext).1, hopen⟩
    · rintro ⟨hagree, hext, hopen⟩
      -- `s` binds `v`, to a value that is consistent with `sel` because `s` is above both
      obtain ⟨i, hi⟩ : ∃ i, s[v]? = some (some i) := by
        have hlt : v < s.length := hagree.length_eq ▸ hv
        cases he : s[v] with
        | none =>
          have hsv : s[v]? = some none := by rw [List.getElem?_eq_getElem hlt, he]
          rw [hopen v hv, hniso] at hsv
          cases hsv
        | some i => exact ⟨i, by rw [List.getElem?_eq_getElem hlt, he]⟩
      have hd := List.getElem?_eq_getElem (hagree.lt_length v i hi)
      have hstep := (extends_set_iff hunbound).mpr ⟨hext, hi⟩
      have hbelow : p.Agrees (sel.set v (some i)) :=
        hagree.of_extends hstep (by rw [List.length_set]; exact hsel.length_eq)
      have hmem : i ∈ cs := by
        rw [hcs, mem_candidates_iff]
        exact ⟨_, hd, (agrees_set_iff hp hsel hunbound hd).mp hbelow⟩
      exact ⟨i, hmem, (hbranch i hmem).mpr ⟨hagree, hstep, hopen⟩⟩

theorem extends_of_mem_search {p : Problem ι δ} {sel s : Selection} (h : s ∈ p.search sel) :
    Extends s sel := by
  induction sel using search.induct p with
  | case1 sel hnone =>
    rw [search_of_select_eq_none hnone, List.mem_singleton] at h
    exact h ▸ fun _ _ hi => hi
  | case2 sel v cs hsome ih =>
    obtain ⟨-, hunbound, -⟩ := mem_openVariables_iff.mp (mem_openVariables_of_select hsome)
    rw [search_of_select_eq_some hsome, List.mem_flatMap] at h
    obtain ⟨i, -, hs⟩ := h
    exact ((extends_set_iff hunbound).mp (ih i hs)).1

/-- The search reaches no selection twice: different branches differ at the variable chosen. -/
theorem nodup_search {p : Problem ι δ} {sel : Selection} : (p.search sel).Nodup := by
  induction sel using search.induct p with
  | case1 sel hnone =>
    rw [search_of_select_eq_none hnone]
    exact List.nodup_singleton sel
  | case2 sel v cs hsome ih =>
    obtain ⟨-, hunbound, -⟩ := mem_openVariables_iff.mp (mem_openVariables_of_select hsome)
    have hcs : cs = p.candidates sel v :=
      eq_candidates_of_selectFrom (fun _ _ h => (by cases h)) hsome
    rw [search_of_select_eq_some hsome, List.nodup_flatMap]
    refine ⟨fun i _ => ih i, ?_⟩
    rw [hcs]
    refine nodup_candidates.imp fun {i j} hij s hi hj => hij ?_
    -- what is above two branches binds the variable to both of their values
    have hsi := ((extends_set_iff hunbound).mp (extends_of_mem_search hi)).2
    have hsj := ((extends_set_iff hunbound).mp (extends_of_mem_search hj)).2
    rw [hsi] at hsj
    exact Option.some.inj (Option.some.inj hsj)

end Problem

end GraphHom
