import GraphHom.Proofs.StateSpace.First
import Mathlib.Logic.Relation

/-!
# Memory on a space with cycles

A walk that remembers comes to an end in every space with finitely many keys: on the way down each
offer adds a key that was not met before, so that no path is longer than there are keys
(`Walk.exists_visit_widens`). What it has met then is closed: with a state that is not done, the
successors of this state have been met too (`Walk.Widens`).

An explorer whose walks all came to an end is `Explorer.Settled`: what it has met is closed. So what a
later walk skips leads nowhere new, and a walk finds the results of just those states that it can reach
and no earlier walk could (`Explorer.exists_allResults_settled`).
-/

namespace GraphHom

variable {σ χ κ ω : Type}

/-! ## Reachability -/

namespace StateSpace

variable {space : StateSpace σ χ κ ω} {U P : Offer σ χ → Prop} {start offer offer' : Offer σ χ}

/-- An admissible choice leads from one offer to the next; from a done state none does. -/
def Leads (space : StateSpace σ χ κ ω) (offer next : Offer σ χ) : Prop :=
  ¬space.isDone offer.state = true ∧ next ∈ space.successors offer

/-- Choices lead from one offer to another. -/
def Reaches (space : StateSpace σ χ κ ω) : Offer σ χ → Offer σ χ → Prop :=
  Relation.ReflTransGen space.Leads

theorem KeysDecide.of_reaches (hk : space.KeysDecide U) (hU : U start)
    (h : space.Reaches start offer) : U offer := by
  induction h with
  | refl => exact hU
  | tail _ hlast ih => exact hk.next _ ih hlast.1 _ hlast.2

/-- Keys that are to be trusted are so on what can be reached. -/
theorem KeysDecide.reaches (hk : space.KeysDecide U) (hU : U start) :
    space.KeysDecide (space.Reaches start) where
  next _ h hdone _ hnext := Relation.ReflTransGen.tail h ⟨hdone, hnext⟩
  isDone _ _ h h' := hk.isDone _ _ (hk.of_reaches hU h) (hk.of_reaches hU h')
  result _ _ h h' := hk.result _ _ (hk.of_reaches hU h) (hk.of_reaches hU h')
  successors _ _ h h' := hk.successors _ _ (hk.of_reaches hU h) (hk.of_reaches hU h')

/-- What has been met of the successors of one offer has been met of those of another with its key. -/
theorem KeysDecide.forall_successors [BEq κ] [Hashable κ] {met : Std.HashSet κ}
    (hk : space.KeysDecide U) (hU : U offer) (hU' : U offer')
    (hkey : space.key offer.state = space.key offer'.state)
    (hdone : ¬space.isDone offer.state = true)
    (h : ∀ next ∈ space.successors offer, space.key next.state ∈ met) :
    ∀ next ∈ space.successors offer', space.key next.state ∈ met := by
  intro next hnext
  have hmem := List.mem_map_of_mem (f := fun o => space.key o.state) hnext
  rw [← hk.successors offer offer' hU hU' hkey hdone] at hmem
  obtain ⟨next', hnext', heq⟩ := List.mem_map.mp hmem
  exact heq ▸ h next' hnext'

end StateSpace

/-- Of two counts the one that leaves an element out is less. -/
theorem countP_lt_countP {α : Type} {p q : α → Bool} {l : List α} {a : α}
    (h : ∀ b, p b = true → q b = true) (ha : a ∈ l) (hq : q a = true) (hp : ¬p a = true) :
    l.countP p < l.countP q := by
  obtain ⟨l₁, l₂, rfl⟩ := List.append_of_mem ha
  have h₁ : l₁.countP p ≤ l₁.countP q := List.countP_mono_left fun b _ => h b
  have h₂ : l₂.countP p ≤ l₂.countP q := List.countP_mono_left fun b _ => h b
  rw [List.countP_append, List.countP_append, List.countP_cons_of_neg hp, List.countP_cons_of_pos hq]
  omega

variable [BEq κ] [Hashable κ]

namespace Explorer

variable {e : Explorer κ} {k k' : κ} {keys : List κ}

/-! ## Keys still to be met -/

/-- How many of the keys have not been met. -/
def unmet (e : Explorer κ) (keys : List κ) : Nat := keys.countP (· ∉ e.met)

theorem unmet_le (e : Explorer κ) : e.unmet keys ≤ keys.length := List.countP_le_length

theorem unmet_le_unmet {e' : Explorer κ} (h : ∀ k, k ∈ e.met → k ∈ e'.met) :
    e'.unmet keys ≤ e.unmet keys := by
  refine List.countP_mono_left fun k _ hk => ?_
  rw [decide_eq_true_eq] at hk ⊢
  exact fun hmem => hk (h k hmem)

theorem skips_eq_true_iff (hrem : e.remembers = true) : e.skips k = true ↔ k ∈ e.met := by
  rw [skips, hrem, Bool.true_and, Std.HashSet.mem_iff_contains]

variable [LawfulBEq κ]

theorem mem_met_enter (hrem : e.remembers = true) : k ∈ (e.enter k').met ↔ k = k' ∨ k ∈ e.met := by
  show k ∈ (if e.remembers then e.met.insert k' else e.met) ↔ _
  rw [if_pos hrem, Std.HashSet.mem_insert, beq_iff_eq, eq_comm]

theorem unmet_enter_lt (hrem : e.remembers = true) (hk : k ∈ keys) (hnew : k ∉ e.met) :
    (e.enter k).unmet keys < e.unmet keys := by
  have hmet : k ∈ (e.enter k).met := (mem_met_enter hrem).mpr (.inl rfl)
  refine countP_lt_countP (fun k' hk' => ?_) hk (decide_eq_true hnew) ?_
  · rw [decide_eq_true_eq] at hk' ⊢
    exact fun hmem => hk' ((mem_met_enter hrem).mpr (.inr hmem))
  · rw [decide_eq_true_eq]
    exact fun hnot => hnot hmet

theorem size_met_enter (hrem : e.remembers = true) (hnew : k ∉ e.met) :
    (e.enter k).met.size = e.met.size + 1 := by
  show (if e.remembers then e.met.insert k else e.met).size = _
  rw [if_pos hrem, Std.HashSet.size_insert, if_neg hnew]

end Explorer

namespace Walk

open StateSpace

variable {space : StateSpace σ χ κ ω} {U P : Offer σ χ → Prop} {depth : Nat} {keys : List κ}
variable {w w' w'' : Walk κ ω} {offer : Offer σ χ} {l : List (Offer σ χ)}

/-! ## What a walk with memory adds -/

/-- The key of the offer has been met between two moments of a walk. -/
def NewlyMet (space : StateSpace σ χ κ ω) (w w' : Walk κ ω) (offer : Offer σ χ) : Prop :=
  space.key offer.state ∈ w'.explorer.met ∧ space.key offer.state ∉ w.explorer.met

/-- From `w` to `w'` a walk with memory has met keys of offers in `P`, has met their successors too,
has found their results, and has counted them. -/
structure Widens (space : StateSpace σ χ κ ω) (P : Offer σ χ → Prop) (w w' : Walk κ ω) : Prop where
  /-- Nothing is forgotten. -/
  subset : ∀ k, k ∈ w.explorer.met → k ∈ w'.explorer.met
  /-- The keys newly met are those of offers in `P`. -/
  source : ∀ k, k ∈ w'.explorer.met → k ∈ w.explorer.met ∨ ∃ o, P o ∧ space.key o.state = k
  /-- With an offer that is not done, its successors have been met. -/
  closed : ∀ o, P o → NewlyMet space w w' o → ¬space.isDone o.state = true →
    ∀ next ∈ space.successors o, space.key next.state ∈ w'.explorer.met
  /-- The results newly found are those of the done offers newly met. -/
  found : ∀ r, r ∈ w'.found ↔ r ∈ w.found ∨
    ∃ o, P o ∧ NewlyMet space w w' o ∧ space.isDone o.state = true ∧ space.result o.state = r
  /-- Every key newly met has been counted once. -/
  entered : w'.explorer.entered + w.explorer.met.size = w.explorer.entered + w'.explorer.met.size

theorem not_newlyMet_self : ¬NewlyMet space w w offer := fun h => h.2 h.1

namespace Widens

theorem refl : Widens space P w w where
  subset _ h := h
  source _ h := .inl h
  closed _ _ hnew := absurd hnew not_newlyMet_self
  found _ := ⟨.inl, fun h => h.elim id fun ⟨_, _, hnew, _⟩ => absurd hnew not_newlyMet_self⟩
  entered := rfl

theorem newlyMet_iff (h : Widens space P w w') (h' : Widens space P w' w'') :
    NewlyMet space w w'' offer ↔ NewlyMet space w w' offer ∨ NewlyMet space w' w'' offer := by
  constructor
  · rintro ⟨hmet, hnot⟩
    by_cases hmid : space.key offer.state ∈ w'.explorer.met
    · exact .inl ⟨hmid, hnot⟩
    · exact .inr ⟨hmet, hmid⟩
  · rintro (⟨hmet, hnot⟩ | ⟨hmet, hnot⟩)
    · exact ⟨h'.subset _ hmet, hnot⟩
    · exact ⟨hmet, fun hmem => hnot (h.subset _ hmem)⟩

theorem trans (h : Widens space P w w') (h' : Widens space P w' w'') : Widens space P w w'' where
  subset k hk := h'.subset k (h.subset k hk)
  source k hk := (h'.source k hk).elim (h.source k) .inr
  closed o ho hnew hdone next hnext := by
    rcases (newlyMet_iff h h').mp hnew with hnew | hnew
    · exact h'.subset _ (h.closed o ho hnew hdone next hnext)
    · exact h'.closed o ho hnew hdone next hnext
  found r := by
    rw [h'.found, h.found, or_assoc]
    refine or_congr_right ?_
    simp only [newlyMet_iff h h', or_and_right, and_or_left, exists_or]
  entered := by
    have := h.entered
    have := h'.entered
    omega

variable [LawfulBEq κ]

/-- A state that is done is entered, and its result found. -/
theorem of_isDone (hk : space.KeysDecide P) (hP : P offer) (hrem : w.explorer.remembers = true)
    (hnot : space.key offer.state ∉ w.explorer.met) (hdone : space.isDone offer.state = true) :
    Widens space P w
      ⟨w.explorer.enter (space.key offer.state), space.result offer.state :: w.found⟩ := by
  have hkey : ∀ o, NewlyMet space w
      ⟨w.explorer.enter (space.key offer.state), space.result offer.state :: w.found⟩ o ↔
        space.key o.state = space.key offer.state := by
    intro o
    refine ⟨fun ⟨hmet, hnew⟩ => ((Explorer.mem_met_enter hrem).mp hmet).resolve_right hnew, fun h => ?_⟩
    exact ⟨(Explorer.mem_met_enter hrem).mpr (.inl h), fun hmem => hnot (h ▸ hmem)⟩
  refine ⟨fun k hmem => (Explorer.mem_met_enter hrem).mpr (.inr hmem), fun k hmem => ?_,
    fun o ho hnew hopen => ?_, fun r => ?_, ?_⟩
  · rcases (Explorer.mem_met_enter hrem).mp hmem with rfl | hmem
    · exact .inr ⟨offer, hP, rfl⟩
    · exact .inl hmem
  · rw [hk.isDone o offer ho hP ((hkey o).mp hnew)] at hopen
    exact absurd hdone hopen
  · rw [List.mem_cons]
    constructor
    · rintro (rfl | hmem)
      · exact .inr ⟨offer, hP, (hkey offer).mpr rfl, hdone, rfl⟩
      · exact .inl hmem
    · rintro (hmem | ⟨o, ho, hnew, hdone', rfl⟩)
      · exact .inr hmem
      · exact .inl (hk.result o offer ho hP ((hkey o).mp hnew) hdone')
  · rw [Explorer.size_met_enter hrem hnot]
    show w.explorer.entered + 1 + _ = _
    omega

/-- A state that is not done is entered, and then all its successors have been met. -/
theorem of_entering (hk : space.KeysDecide P) (hP : P offer) (hrem : w.explorer.remembers = true)
    (hnot : space.key offer.state ∉ w.explorer.met) (hdone : ¬space.isDone offer.state = true)
    (h : Widens space P (w.entering space offer) w')
    (hnext : ∀ next ∈ space.successors offer, space.key next.state ∈ w'.explorer.met) :
    Widens space P w w' := by
  have hmem : ∀ k, k ∈ (w.entering space offer).explorer.met ↔
      k = space.key offer.state ∨ k ∈ w.explorer.met := fun k => Explorer.mem_met_enter hrem
  have hnew : ∀ o, NewlyMet space w w' o ↔ space.key o.state = space.key offer.state ∨
      NewlyMet space (w.entering space offer) w' o := by
    intro o
    constructor
    · rintro ⟨hmet, hnot'⟩
      by_cases hkey : space.key o.state = space.key offer.state
      · exact .inl hkey
      · exact .inr ⟨hmet, fun hin => ((hmem _).mp hin).elim hkey hnot'⟩
    · rintro (hkey | ⟨hmet, hnot'⟩)
      · exact ⟨h.subset _ ((hmem _).mpr (.inl hkey)), hkey ▸ hnot⟩
      · exact ⟨hmet, fun hin => hnot' ((hmem _).mpr (.inr hin))⟩
  refine ⟨fun k hin => h.subset k ((hmem k).mpr (.inr hin)), fun k hin => ?_,
    fun o ho ho' hopen => ?_, fun r => ?_, ?_⟩
  · rcases h.source k hin with hin | hsource
    · rcases (hmem k).mp hin with rfl | hin
      · exact .inr ⟨offer, hP, rfl⟩
      · exact .inl hin
    · exact .inr hsource
  · rcases (hnew o).mp ho' with hkey | hlater
    · exact hk.forall_successors hP ho hkey.symm hdone hnext
    · exact h.closed o ho hlater hopen
  · rw [h.found]
    refine or_congr_right (exists_congr fun o => and_congr_right fun ho => ?_)
    rw [hnew]
    -- an offer with the key of this one has no result
    refine ⟨fun ⟨hlater, hrest⟩ => ⟨.inr hlater, hrest⟩, fun ⟨hor, hrest⟩ => ⟨?_, hrest⟩⟩
    refine hor.resolve_left fun hkey => ?_
    rw [hk.isDone o offer ho hP hkey] at hrest
    exact hdone hrest.1
  · have hsize : (w.entering space offer).explorer.met.size = w.explorer.met.size + 1 :=
      Explorer.size_met_enter hrem hnot
    have hcount : w'.explorer.entered + (w.entering space offer).explorer.met.size =
        w.explorer.entered + 1 + w'.explorer.met.size := h.entered
    omega

end Widens

/-! ## Every walk with memory ends -/

theorem exists_foldlM_widens
    (hvisit : ∀ offer, P offer → ∀ w : Walk κ ω, w.explorer.remembers = true →
      w.explorer.unmet keys < depth → ∃ w', visit space false depth w offer = some w' ∧
        Widens space P w w' ∧ space.key offer.state ∈ w'.explorer.met)
    (hP : ∀ offer ∈ l, P offer) (hrem : w.explorer.remembers = true)
    (hdepth : w.explorer.unmet keys < depth) :
    ∃ w', l.foldlM (visit space false depth) w = some w' ∧ Widens space P w w' ∧
      ∀ offer ∈ l, space.key offer.state ∈ w'.explorer.met := by
  induction l generalizing w with
  | nil => exact ⟨w, rfl, Widens.refl, fun _ h => by cases h⟩
  | cons offer l ih =>
    obtain ⟨w₁, hw₁, hwiden₁, hmet₁⟩ := hvisit offer (hP offer List.mem_cons_self) w hrem hdepth
    obtain ⟨w₂, hw₂, hwiden₂, hmet₂⟩ := ih (fun o ho => hP o (List.mem_cons_of_mem offer ho))
      ((remembers_eq hw₁).trans hrem)
      (Nat.lt_of_le_of_lt (Explorer.unmet_le_unmet hwiden₁.subset) hdepth)
    refine ⟨w₂, ?_, hwiden₁.trans hwiden₂, fun o ho => ?_⟩
    · rw [foldlM_visit_cons, hw₁]
      exact hw₂
    · rcases List.mem_cons.mp ho with rfl | ho
      · exact hwiden₂.subset _ hmet₁
      · exact hmet₂ o ho

variable [LawfulBEq κ]

/-- **A walk with memory ends**, if it may go down once more than there are keys left to meet. After it
the key of its offer has been met. -/
theorem exists_visit_widens (hk : space.KeysDecide P) (hkeys : ∀ o, P o → space.key o.state ∈ keys)
    (hP : P offer) (hrem : w.explorer.remembers = true) (hdepth : w.explorer.unmet keys < depth) :
    ∃ w', visit space false depth w offer = some w' ∧ Widens space P w w' ∧
      space.key offer.state ∈ w'.explorer.met := by
  induction depth generalizing w offer with
  | zero => exact absurd hdepth (Nat.not_lt_zero _)
  | succ depth ih =>
    by_cases hmet : space.key offer.state ∈ w.explorer.met
    · exact ⟨w, visit_of_skips ((Explorer.skips_eq_true_iff hrem).mpr hmet), Widens.refl, hmet⟩
    · have henters : Enters space false w offer :=
        ⟨rfl, Bool.eq_false_iff.mpr fun h => hmet ((Explorer.skips_eq_true_iff hrem).mp h)⟩
      by_cases hdone : space.isDone offer.state = true
      · exact ⟨_, visit_of_isDone henters hdone, Widens.of_isDone hk hP hrem hmet hdone,
          (Explorer.mem_met_enter hrem).mpr (.inl rfl)⟩
      · -- entering the offer leaves one key less to meet
        have hless := Explorer.unmet_enter_lt hrem (hkeys offer hP) hmet
        obtain ⟨w', hw', hwiden, hnext⟩ := exists_foldlM_widens (w := w.entering space offer)
          (fun next hnext w hw hd => ih hnext hw hd) (hk.next offer hP hdone) hrem
          (Nat.lt_of_lt_of_le hless (Nat.le_of_lt_succ hdepth))
        refine ⟨w', ?_, hwiden.of_entering hk hP hrem hmet hdone hnext, ?_⟩
        · rw [visit_of_not_isDone henters hdone]
          exact hw'
        · exact hwiden.subset _ ((Explorer.mem_met_enter hrem).mpr (.inl rfl))

end Walk

/-! ## Explorers between walks -/

namespace Explorer

open StateSpace

variable {space : StateSpace σ χ κ ω} {U : Offer σ χ → Prop} {start offer : Offer σ χ}
variable {e e' : Explorer κ} {keys : List κ} {k : κ}

/-- An explorer between walks that have not been broken off: with a state that is not done it has met
the successors of this state, and it has entered one state for every key met. -/
structure Settled (space : StateSpace σ χ κ ω) (U : Offer σ χ → Prop) (e : Explorer κ) : Prop where
  /-- What has been met is closed. -/
  closed : ∀ o, U o → space.key o.state ∈ e.met → ¬space.isDone o.state = true →
    ∀ next ∈ space.successors o, space.key next.state ∈ e.met
  /-- Every key met has been counted once. -/
  entered : e.entered = e.met.size

theorem settled_new : (Explorer.new true : Explorer κ).Settled space U where
  closed _ _ hmet := absurd hmet Std.HashSet.not_mem_empty
  entered := Std.HashSet.size_empty.symm

/-- Everything that can be reached from what has been met has been met. -/
theorem Settled.of_reaches (h : e.Settled space U) (hk : space.KeysDecide U) (hU : U start)
    (hmet : space.key start.state ∈ e.met) (hreach : space.Reaches start offer) :
    space.key offer.state ∈ e.met := by
  induction hreach with
  | refl => exact hmet
  | tail hfirst hlast ih =>
    exact h.closed _ (hk.of_reaches hU hfirst) ih hlast.1 _ hlast.2

/-- A walk that widens what is settled leaves it settled. -/
theorem Settled.of_widens {w w' : Walk κ ω} (h : w.explorer.Settled space U) (hk : space.KeysDecide U)
    (hU : U start) (hwiden : Walk.Widens space (space.Reaches start) w w') :
    w'.explorer.Settled space U where
  closed o ho hmet hdone := by
    by_cases hold : space.key o.state ∈ w.explorer.met
    · exact fun next hnext => hwiden.subset _ (h.closed o ho hold hdone next hnext)
    · -- an offer with the same key has been reached, and its successors are met
      obtain ⟨o', ho', hkey⟩ := (hwiden.source _ hmet).resolve_left hold
      have hU' : U o' := hk.of_reaches hU ho'
      rw [← hk.isDone o' o hU' ho hkey] at hdone
      exact hk.forall_successors hU' ho hkey hdone
        (hwiden.closed o' ho' ⟨hkey ▸ hmet, hkey ▸ hold⟩ hdone)
  entered := by
    have := h.entered
    have := hwiden.entered
    omega

variable [LawfulBEq κ] [BEq ω] [Hashable ω] [LawfulBEq ω]

/-- **A walk with memory finds what no earlier walk could reach.** It always ends, with no more depth
than there are keys. -/
theorem exists_allResults_settled (hk : space.KeysDecide U)
    (hkeys : ∀ o, U o → space.key o.state ∈ keys) (hU : U start) (hrem : e.remembers = true) :
    ∃ rs e', (∀ depth, keys.length < depth →
        e.allResults space depth start = some (rs, e')) ∧ e'.remembers = true ∧
      (e.Settled space U → e'.Settled space U ∧
        (∀ k, k ∈ e'.met ↔ k ∈ e.met ∨ ∃ o, space.Reaches start o ∧ space.key o.state = k) ∧
        rs.Nodup ∧ ∀ r, r ∈ rs ↔ ∃ o, space.Reaches start o ∧ space.key o.state ∉ e.met ∧
          space.isDone o.state = true ∧ space.result o.state = r) := by
  obtain ⟨w, hw, hwiden, hmet⟩ := Walk.exists_visit_widens (w := ⟨e, []⟩) (hk.reaches hU)
    (fun o ho => hkeys o (hk.of_reaches hU ho)) Relation.ReflTransGen.refl hrem
    (Nat.lt_succ_of_le (unmet_le e))
  have hall : e.allResults space (keys.length + 1) start =
      some (distinct w.found.reverse, w.explorer) := by rw [allResults, hw, Option.map_some]
  refine ⟨distinct w.found.reverse, w.explorer, fun depth hdepth => allResults_mono hall hdepth,
    (Walk.remembers_eq hw).trans hrem, fun hsettled => ?_⟩
  have hsettled' : w.explorer.Settled space U := Settled.of_widens hsettled hk hU hwiden
  have hreached : ∀ o, space.Reaches start o → space.key o.state ∈ w.explorer.met :=
    fun o ho => hsettled'.of_reaches hk hU hmet ho
  refine ⟨hsettled', fun k => ⟨hwiden.source k, ?_⟩, nodup_distinct, fun r => ?_⟩
  · rintro (hk | ⟨o, ho, rfl⟩)
    · exact hwiden.subset k hk
    · exact hreached o ho
  · rw [mem_distinct_iff, List.mem_reverse, hwiden.found]
    constructor
    · rintro (hnil | ⟨o, ho, hnew, hrest⟩)
      · cases hnil
      · exact ⟨o, ho, hnew.2, hrest⟩
    · rintro ⟨o, ho, hnot, hrest⟩
      exact .inr ⟨o, ho, ⟨hreached o ho, hnot⟩, hrest⟩

end Explorer

end GraphHom
