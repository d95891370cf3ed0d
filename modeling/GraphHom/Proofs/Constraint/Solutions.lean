import GraphHom.Proofs.Constraint.Search

/-!
# The solutions of a constraint problem

The isolated variables, which take no part in the search, are multiplied into what it reaches. The
result are the complete selections that agree (`mem_solutions_iff`), none twice (`nodup_solutions`):
since no constraint and no group looks at an isolated variable, the invariant of the search does not
depend on it (`Agrees.congr`).
-/

namespace GraphHom

variable {ι δ : Type}

namespace Problem

/-! ## Multiplying variables in -/

theorem mem_multiplyIn_iff {p : Problem ι δ} {sels : List Selection} {v : Nat} {s : Selection} :
    s ∈ p.multiplyIn sels v ↔ ∃ sel ∈ sels, ∃ i < (p.domain v).length, s = sel.set v (some i) := by
  simp only [multiplyIn, List.mem_flatMap, List.mem_map, List.mem_range, eq_comm]

/-- A selection that leaves `v` unbound is recovered from the one in which `v` has been bound. -/
theorem set_inj {sel sel' : Selection} {v i j : Nat} (h : sel[v]? = some none)
    (h' : sel'[v]? = some none) (heq : sel.set v (some i) = sel'.set v (some j)) :
    sel = sel' ∧ i = j := by
  obtain ⟨hv, hnone⟩ := List.getElem?_eq_some_iff.mp h
  obtain ⟨hv', hnone'⟩ := List.getElem?_eq_some_iff.mp h'
  constructor
  · calc
      sel = (sel.set v (some i)).set v none := by
        rw [List.set_set, ← hnone, List.set_getElem_self]
      _ = (sel'.set v (some j)).set v none := by rw [heq]
      _ = sel' := by rw [List.set_set, ← hnone', List.set_getElem_self]
  · have hget := congrArg (·[v]?) heq
    simp only [List.getElem?_set_self hv, List.getElem?_set_self hv'] at hget
    exact Option.some.inj (Option.some.inj hget)

theorem nodup_multiplyIn {p : Problem ι δ} {sels : List Selection} {v : Nat} (h : sels.Nodup)
    (hopen : ∀ sel ∈ sels, sel[v]? = some none) : (p.multiplyIn sels v).Nodup := by
  rw [multiplyIn, List.nodup_flatMap]
  constructor
  · intro sel hsel
    refine List.nodup_range.map_on fun i _ j _ hij => ?_
    exact (set_inj (hopen sel hsel) (hopen sel hsel) hij).2
  · refine List.Pairwise.imp_of_mem ?_ h
    -- two selections that are not equal stay apart, whatever `v` is bound to
    intro sel sel' hsel hsel' hne s hs hs'
    obtain ⟨i, -, hi⟩ := List.mem_map.mp hs
    obtain ⟨j, -, hj⟩ := List.mem_map.mp hs'
    exact hne (set_inj (hopen sel hsel) (hopen sel' hsel') (hi.trans hj.symm)).1

/-- Multiplying in a variable leaves the others unbound. -/
theorem unbound_of_mem_multiplyIn {p : Problem ι δ} {sels : List Selection} {v w : Nat}
    (hwv : w ≠ v) (hopen : ∀ sel ∈ sels, sel[w]? = some none) :
    ∀ s ∈ p.multiplyIn sels v, s[w]? = some none := by
  intro s hs
  obtain ⟨sel, hsel, i, -, rfl⟩ := mem_multiplyIn_iff.mp hs
  rw [List.getElem?_set_ne hwv.symm]
  exact hopen sel hsel

/-- Multiplying in several variables binds them in every way and changes nothing else. -/
theorem mem_foldl_multiplyIn_iff {p : Problem ι δ} {vs : List Nat} {sels : List Selection}
    {s : Selection} (hvs : vs.Nodup) (hopen : ∀ v ∈ vs, ∀ sel ∈ sels, sel[v]? = some none) :
    s ∈ vs.foldl p.multiplyIn sels ↔ ∃ sel ∈ sels, s.length = sel.length ∧
      (∀ v ∈ vs, ∃ i < (p.domain v).length, s[v]? = some (some i)) ∧
      ∀ v, v ∉ vs → s[v]? = sel[v]? := by
  induction vs generalizing sels with
  | nil =>
    constructor
    · intro h
      exact ⟨s, h, rfl, by simp, fun _ _ => rfl⟩
    · rintro ⟨sel, hsel, -, -, heq⟩
      rw [List.ext_getElem? fun v => heq v List.not_mem_nil]
      exact hsel
  | cons v vs ih =>
    obtain ⟨hv, hvs⟩ := List.nodup_cons.mp hvs
    -- binding `v` leaves the other variables to be multiplied in unbound
    have hopen_vs : ∀ w ∈ vs, ∀ sel ∈ p.multiplyIn sels v, sel[w]? = some none := fun w hw =>
      unbound_of_mem_multiplyIn (fun h => hv (h ▸ hw)) (hopen w (List.mem_cons_of_mem v hw))
    have hlt : ∀ sel ∈ sels, v < sel.length := fun sel hsel =>
      (List.getElem?_eq_some_iff.mp (hopen v List.mem_cons_self sel hsel)).1
    rw [List.foldl_cons, ih hvs hopen_vs]
    constructor
    · rintro ⟨_, hmem, hlen, hbound, heq⟩
      obtain ⟨sel, hsel, i, hi, rfl⟩ := mem_multiplyIn_iff.mp hmem
      refine ⟨sel, hsel, by rw [hlen, List.length_set], ?_, ?_⟩
      · intro w hw
        rcases List.mem_cons.mp hw with rfl | hw
        · exact ⟨i, hi, by rw [heq w hv, List.getElem?_set_self (hlt sel hsel)]⟩
        · exact hbound w hw
      · intro w hw
        rw [List.mem_cons, not_or] at hw
        rw [heq w hw.2, List.getElem?_set_ne (Ne.symm hw.1)]
    · rintro ⟨sel, hsel, hlen, hbound, heq⟩
      obtain ⟨i, hi, hsv⟩ := hbound v List.mem_cons_self
      refine ⟨sel.set v (some i), mem_multiplyIn_iff.mpr ⟨sel, hsel, i, hi, rfl⟩, ?_, ?_, ?_⟩
      · rw [hlen, List.length_set]
      · exact fun w hw => hbound w (List.mem_cons_of_mem v hw)
      · intro w hw
        by_cases hwv : w = v
        · rw [hwv, hsv, List.getElem?_set_self (hlt sel hsel)]
        · rw [List.getElem?_set_ne (Ne.symm hwv)]
          exact heq w (by simp [hw, hwv])

theorem nodup_foldl_multiplyIn {p : Problem ι δ} {vs : List Nat} {sels : List Selection}
    (h : sels.Nodup) (hvs : vs.Nodup) (hopen : ∀ v ∈ vs, ∀ sel ∈ sels, sel[v]? = some none) :
    (vs.foldl p.multiplyIn sels).Nodup := by
  induction vs generalizing sels with
  | nil => exact h
  | cons v vs ih =>
    obtain ⟨hv, hvs⟩ := List.nodup_cons.mp hvs
    refine ih (nodup_multiplyIn h (hopen v List.mem_cons_self)) hvs fun w hw => ?_
    exact unbound_of_mem_multiplyIn (fun h => hv (h ▸ hw)) (hopen w (List.mem_cons_of_mem v hw))

/-! ## Isolated variables -/

theorem isIsolated_eq_true_iff {p : Problem ι δ} (hp : p.Indexed) {v : Nat}
    (hv : v < p.vars.length) :
    p.isIsolated v = true ↔
      (∀ c ∈ p.constraints, c.lhsAt ≠ v ∧ c.rhsAt ≠ v) ∧ ∀ g ∈ p.groups, v ∉ g := by
  simp only [isIsolated, Bool.and_eq_true, List.isEmpty_iff, hp.constraintsOn_eq hv,
    hp.groupsOf_eq hv, List.eq_nil_iff_forall_not_mem, mem_constraintNumbers_iff,
    mem_groupNumbers_iff]
  refine and_congr ?_ ?_
  · constructor
    · intro h c hc
      obtain ⟨n, hn⟩ := List.mem_iff_getElem?.mp hc
      exact ⟨fun hl => h n ⟨c, hn, .inl hl⟩, fun hr => h n ⟨c, hn, .inr hr⟩⟩
    · rintro h n ⟨c, hc, hside⟩
      obtain ⟨hl, hr⟩ := h c (List.mem_of_getElem? hc)
      exact hside.elim hl hr
  · constructor
    · intro h g hg hv
      obtain ⟨n, hn⟩ := List.mem_iff_getElem?.mp hg
      exact h n ⟨g, hn, hv⟩
    · rintro h n ⟨g, hg, hv⟩
      exact h g (List.mem_of_getElem? hg) hv

theorem mem_isolated_iff {p : Problem ι δ} {v : Nat} :
    v ∈ p.isolated ↔ v < p.vars.length ∧ p.isIsolated v = true := by
  simp [isolated]

theorem nodup_isolated {p : Problem ι δ} : p.isolated.Nodup := List.nodup_range.filter _

theorem lt_of_value_eq_some {p : Problem ι δ} {s : Selection} {v : Nat} {d : δ}
    (h : p.value s v = some d) : v < s.length := by
  obtain ⟨i, hi, -⟩ := value_eq_some_iff.mp h
  exact (List.getElem?_eq_some_iff.mp hi).1

/-- Isolated variables may be bound in any way: no constraint and no group looks at them. -/
theorem Agrees.congr {p : Problem ι δ} (hp : p.Indexed) {sel s : Selection} (hsel : p.Agrees sel)
    (hlen : s.length = sel.length)
    (hiso : ∀ v < p.vars.length, p.isIsolated v = true →
      ∀ i, s[v]? = some (some i) → i < (p.domain v).length)
    (heq : ∀ v < p.vars.length, p.isIsolated v = false → s[v]? = sel[v]?) : p.Agrees s := by
  have hvars : s.length = p.vars.length := hlen.trans hsel.length_eq
  -- a variable that some constraint or group looks at has the value it had
  have hvalue : ∀ v d, p.isIsolated v = false → p.value s v = some d → p.value sel v = some d := by
    intro v d hniso hd
    have hv : v < p.vars.length := hvars ▸ lt_of_value_eq_some hd
    rw [← hd, value, value, heq v hv hniso]
  refine ⟨hvars, ?_, ?_, ?_⟩
  · intro v i hi
    have hv : v < p.vars.length := hvars ▸ (List.getElem?_eq_some_iff.mp hi).1
    cases hv_iso : p.isIsolated v with
    | true => exact hiso v hv hv_iso i hi
    | false => exact hsel.lt_length v i (heq v hv hv_iso ▸ hi)
  · intro c hc a b ha hb
    have hl : p.isIsolated c.lhsAt = false := by
      rw [← Bool.not_eq_true, isIsolated_eq_true_iff hp (hvars ▸ lt_of_value_eq_some ha)]
      exact fun h => (h.1 c hc).1 rfl
    have hr : p.isIsolated c.rhsAt = false := by
      rw [← Bool.not_eq_true, isIsolated_eq_true_iff hp (hvars ▸ lt_of_value_eq_some hb)]
      exact fun h => (h.1 c hc).2 rfl
    exact hsel.holds c hc a b (hvalue _ a hl ha) (hvalue _ b hr hb)
  · intro g hg u hu v hv huv d hd hd'
    have hniso : ∀ w ∈ g, p.value s w = some d → p.isIsolated w = false := by
      intro w hw hwd
      rw [← Bool.not_eq_true, isIsolated_eq_true_iff hp (hvars ▸ lt_of_value_eq_some hwd)]
      exact fun h => h.2 g hg hw
    exact hsel.ne g hg u hu v hv huv d (hvalue u d (hniso u hu hd) hd)
      (hvalue v d (hniso v hv hd') hd')

/-! ## The complete selections -/

/-- A selection is complete if it binds every variable. -/
def IsComplete (p : Problem ι δ) (s : Selection) : Prop :=
  ∀ v < p.vars.length, ∃ i, s[v]? = some (some i)

/-- A selection without the isolated variables it binds. -/
def dropIsolated (p : Problem ι δ) (s : Selection) : Selection :=
  (List.range p.vars.length).map fun v => if p.isIsolated v then none else s[v]?.join

theorem length_dropIsolated {p : Problem ι δ} {s : Selection} :
    (p.dropIsolated s).length = p.vars.length := by
  rw [dropIsolated, List.length_map, List.length_range]

theorem getElem?_dropIsolated {p : Problem ι δ} {s : Selection} {v : Nat}
    (hv : v < p.vars.length) :
    (p.dropIsolated s)[v]? = some (if p.isIsolated v then none else s[v]?.join) := by
  rw [dropIsolated, List.getElem?_map, List.getElem?_range hv]
  rfl

theorem extends_dropIsolated {p : Problem ι δ} {s : Selection} : Extends s (p.dropIsolated s) := by
  intro v i hi
  have hv : v < p.vars.length := length_dropIsolated ▸ (List.getElem?_eq_some_iff.mp hi).1
  rw [getElem?_dropIsolated hv] at hi
  split at hi
  · cases hi
  · exact Option.join_eq_some_iff.mp (Option.some.inj hi)

theorem getElem?_nothingBound {p : Problem ι δ} {v : Nat} (hv : v < p.vars.length) :
    p.nothingBound[v]? = some none := by
  rw [nothingBound, List.getElem?_replicate, if_pos hv]

variable [DecidableEq δ]

/-- What the search reaches from the start: the agreeing selections that bind all but the isolated
variables. -/
theorem mem_search_nothingBound_iff {p : Problem ι δ} (hp : p.Indexed) {s : Selection} :
    s ∈ p.search p.nothingBound ↔
      p.Agrees s ∧ ∀ v < p.vars.length, s[v]? = some none ↔ p.isIsolated v = true := by
  rw [mem_search_iff hp agrees_nothingBound fun v hv _ => getElem?_nothingBound hv]
  exact ⟨fun h => ⟨h.1, h.2.2⟩, fun h => ⟨h.1, extends_nothingBound, h.2⟩⟩

theorem unbound_of_mem_search {p : Problem ι δ} (hp : p.Indexed) {v : Nat} (hv : v ∈ p.isolated) :
    ∀ sel ∈ p.search p.nothingBound, sel[v]? = some none := by
  intro sel hsel
  obtain ⟨hlt, hiso⟩ := mem_isolated_iff.mp hv
  exact (((mem_search_nothingBound_iff hp).mp hsel).2 v hlt).mpr hiso

theorem nodup_solutions {p : Problem ι δ} (hp : p.Indexed) : p.solutions.Nodup :=
  nodup_foldl_multiplyIn nodup_search nodup_isolated fun _ hv => unbound_of_mem_search hp hv

/-- A selection that the search reaches, with the isolated variables bound in any way, is complete
and agrees. -/
theorem agrees_and_isComplete_of_mem_search {p : Problem ι δ} (hp : p.Indexed) {sel s : Selection}
    (hsel : sel ∈ p.search p.nothingBound) (hlen : s.length = sel.length)
    (hbound : ∀ v ∈ p.isolated, ∃ i < (p.domain v).length, s[v]? = some (some i))
    (heq : ∀ v, v ∉ p.isolated → s[v]? = sel[v]?) : p.Agrees s ∧ p.IsComplete s := by
  obtain ⟨hagree, hopen⟩ := (mem_search_nothingBound_iff hp).mp hsel
  have heq' : ∀ v < p.vars.length, p.isIsolated v = false → s[v]? = sel[v]? := by
    intro v _ hniso
    refine heq v fun hmem => ?_
    rw [(mem_isolated_iff.mp hmem).2] at hniso
    cases hniso
  constructor
  · refine hagree.congr hp hlen ?_ heq'
    intro v hv hiso i hi
    obtain ⟨j, hj, hsj⟩ := hbound v (mem_isolated_iff.mpr ⟨hv, hiso⟩)
    rw [hsj] at hi
    cases hi
    exact hj
  · intro v hv
    cases hv_iso : p.isIsolated v with
    | true =>
      obtain ⟨i, -, hi⟩ := hbound v (mem_isolated_iff.mpr ⟨hv, hv_iso⟩)
      exact ⟨i, hi⟩
    | false =>
      have hlt : v < sel.length := hagree.length_eq ▸ hv
      cases he : sel[v] with
      | none =>
        -- the search leaves isolated variables unbound only
        have hnone := (hopen v hv).mp (by rw [List.getElem?_eq_getElem hlt, he])
        rw [hv_iso] at hnone
        cases hnone
      | some i => exact ⟨i, by rw [heq' v hv hv_iso, List.getElem?_eq_getElem hlt, he]⟩

/-- A complete selection that agrees is reached by the search up to its isolated variables. -/
theorem dropIsolated_mem_search {p : Problem ι δ} (hp : p.Indexed) {s : Selection}
    (hagree : p.Agrees s) (hcomplete : p.IsComplete s) :
    p.dropIsolated s ∈ p.search p.nothingBound := by
  rw [mem_search_nothingBound_iff hp]
  refine ⟨hagree.of_extends extends_dropIsolated length_dropIsolated, fun v hv => ?_⟩
  obtain ⟨i, hi⟩ := hcomplete v hv
  rw [getElem?_dropIsolated hv, hi]
  cases p.isIsolated v <;> simp

/-- **The solutions are exactly the complete selections that agree.** -/
theorem mem_solutions_iff {p : Problem ι δ} (hp : p.Indexed) {s : Selection} :
    s ∈ p.solutions ↔ p.Agrees s ∧ p.IsComplete s := by
  rw [solutions, mem_foldl_multiplyIn_iff nodup_isolated fun _ hv => unbound_of_mem_search hp hv]
  constructor
  · rintro ⟨sel, hsel, hlen, hbound, heq⟩
    exact agrees_and_isComplete_of_mem_search hp hsel hlen hbound heq
  · rintro ⟨hagree, hcomplete⟩
    refine ⟨p.dropIsolated s, dropIsolated_mem_search hp hagree hcomplete, ?_, ?_, ?_⟩
    · rw [hagree.length_eq, length_dropIsolated]
    · intro v hv
      obtain ⟨i, hi⟩ := hcomplete v (mem_isolated_iff.mp hv).1
      exact ⟨i, hagree.lt_length v i hi, hi⟩
    · intro v hv
      by_cases hlt : v < p.vars.length
      · obtain ⟨i, hi⟩ := hcomplete v hlt
        have hniso : p.isIsolated v = false := by
          rw [← Bool.not_eq_true]
          exact fun h => hv (mem_isolated_iff.mpr ⟨hlt, h⟩)
        rw [getElem?_dropIsolated hlt, hi, hniso]
        rfl
      · rw [List.getElem?_eq_none (by rw [hagree.length_eq]; omega),
          List.getElem?_eq_none (by rw [length_dropIsolated]; omega)]

end Problem

end GraphHom
