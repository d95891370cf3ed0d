import GraphHom.Graph.Entry
import GraphHom.Proofs.Matching.PartialMatch
import Mathlib.Logic.Relator

/-!
# Partial matches that can be reached

`Reached` are the partial matches one can come to from nothing by any admissible pairings, be they
offered or not. Each of them is `Grown` (`Reached.grown`), since every admissible pairing keeps it so.

In a grown partial match the test for admissible pairings is neither too weak nor too strong: it
passes exactly the pairings of available elements of one kind whose labels can be bound in addition
to those already bound (`Grown.canApply_iff`). The result for all partial matches that can be reached
is `Reached.grown_and_canApply_iff`.
-/

namespace GraphHom

namespace PartialMatch

variable {pattern host : Graph} {injective : Bool} {s : PartialMatch} {p : Pairing} {x y : Name}

/-- The partial matches to which pairings lead, each of them admissible when it is made. -/
inductive Reached (pattern host : Graph) (injective : Bool) : PartialMatch → Prop where
  /-- Nothing is bound. -/
  | start : Reached pattern host injective (start pattern host injective)
  /-- A pairing is made. -/
  | step {s : PartialMatch} {p : Pairing} : Reached pattern host injective s →
      s.canApply p = true → Reached pattern host injective (space.apply s p).2

/-- The bound pairs of labels, together with those of a pairing. -/
def BindsWith (s : PartialMatch) (p : Pairing) (x y : Name) : Prop :=
  s.binding.get? x = some y ∨ Binds p.pattern p.host x y

/-- Binding the labels of the pairing as well gives one image to each label, and different images to
different labels if they must have such. -/
structure Consistent (injective : Bool) (s : PartialMatch) (p : Pairing) : Prop where
  /-- No label gets two images. -/
  function : Relator.RightUnique (s.BindsWith p)
  /-- No two labels get one image. -/
  injection : injective = true → Relator.LeftUnique (s.BindsWith p)

namespace Grown

/-! ## The test is not too weak -/

/-- The labels of an admissible pairing can be bound in addition. -/
theorem consistent (h : Grown pattern host injective s) (hp : s.Admissible p) :
    Consistent injective s p where
  function x y y' hy hy' := by
    have hbound := (h.get?_pair_iff hp).mpr hy
    have hbound' := (h.get?_pair_iff hp).mpr hy'
    rw [hbound] at hbound'
    exact Option.some.inj hbound'
  injection hinj x x' y hx hx' := by
    have hnext := (h.pair hp).binding_injective ((h.pair hp).injective_eq.trans hinj)
    exact hnext x x' y ((h.get?_pair_iff hp).mpr hx) ((h.get?_pair_iff hp).mpr hx')

/-! ## The test is not too strong -/

/-- What can be bound in addition fits. -/
theorem endFits_of_consistent (h : Grown pattern host injective s) (hc : Consistent injective s p)
    (hxy : Binds p.pattern p.host x y) : s.endFits x y = true := by
  rw [endFits_iff]
  cases hx : s.binding.get? x with
  | some bound =>
    -- a second image would have to be the first one
    left
    rw [hc.function (.inl hx) (.inr hxy)]
  | none =>
    -- were the image used, it would be used by `x`
    right
    refine ⟨rfl, fun hinj hused => ?_⟩
    obtain ⟨z, hz⟩ := (h.mem_used_iff y).mp hused
    have hzx : z = x := hc.injection (h.injective_eq.symm.trans hinj) (.inl hz) (.inr hxy)
    rw [hzx, hx] at hz
    cases hz

theorem admissible_of_consistent (h : Grown pattern host injective s) (hp : p.pattern ∈ s.unmatched)
    (hhost : p.host ∈ host.elements) (hkind : p.pattern.IsNode ↔ p.host.IsNode)
    (hc : Consistent injective s p) : s.Admissible p where
  unmatched := hp
  mem_host := h.host_eq ▸ hhost
  kind := hkind
  unbound := ((h.mem_unmatched_iff _).mp hp).2
  free := by
    have hunbound : s.binding.get? p.pattern.label = none := ((h.mem_unmatched_iff _).mp hp).2
    rcases endFits_iff.mp (h.endFits_of_consistent hc (.inr (.inl ⟨rfl, rfl⟩))) with hbound | hfree
    · rw [hunbound] at hbound
      cases hbound
    · exact isFree_iff.mpr hfree.2
  loop heq := by
    exact hc.function (.inr (.inl ⟨rfl, rfl⟩)) (.inr (.inr (.inr ⟨heq, rfl⟩)))
  source := h.endFits_of_consistent hc (.inl ⟨rfl, rfl⟩)
  target := h.endFits_of_consistent hc (.inr (.inr ⟨rfl, rfl⟩))
  openEnds hinj hne _ _ heq := by
    refine hne (hc.injection (h.injective_eq.symm.trans hinj) (.inr (.inl ⟨rfl, rfl⟩)) ?_)
    exact .inr (.inr (.inr ⟨rfl, heq⟩))

theorem canApply_iff (h : Grown pattern host injective s) :
    s.canApply p = true ↔ p.pattern ∈ s.unmatched ∧ p.host ∈ host.elements ∧
      (p.pattern.IsNode ↔ p.host.IsNode) ∧ Consistent injective s p := by
  rw [PartialMatch.canApply_iff]
  constructor
  · intro hp
    exact ⟨hp.unmatched, h.mem_host hp, hp.kind, h.consistent hp⟩
  · rintro ⟨hunmatched, hhost, hkind, hc⟩
    exact h.admissible_of_consistent hunmatched hhost hkind hc

end Grown

/-! ## Every partial match that can be reached -/

namespace Reached

/-- What holds from the start, and is kept by every step, holds of whatever can be reached. -/
theorem grown (h : Reached pattern host injective s) : Grown pattern host injective s := by
  induction h with
  | start => exact grown_start pattern host injective
  | step _ hp ih => exact ih.pair (PartialMatch.canApply_iff.mp hp)

/-- **Growing keeps matched what it has matched, and turns no pairing away that could be added.** In
any partial match that can be reached, unmatched are the elements of the pattern that are not bound;
what is bound goes to host elements of its kind, edges with their ends; used are the images, and no
two labels have one image in an injective match. A pairing passes the test just if its elements are
available and of one kind, and with its labels the binding is still a function, one-to-one in an
injective match. -/
theorem grown_and_canApply_iff (h : Reached pattern host injective s) :
    Grown pattern host injective s ∧
    ∀ p : Pairing, s.canApply p = true ↔ p.pattern ∈ s.unmatched ∧ p.host ∈ host.elements ∧
      (p.pattern.IsNode ↔ p.host.IsNode) ∧ Consistent injective s p :=
  ⟨h.grown, fun _ => h.grown.canApply_iff⟩

/-- An edge with fresh ends, of two parallel ones, has been paired with the way out of a loop. -/
theorem grown_and_canApply_iff_parallel :
    ∃ pattern host s,
      Graph.ofEntries ⟨"P"⟩ [.edge ⟨⟨"x"⟩, ⟨"e"⟩, ⟨"y"⟩⟩, .edge ⟨⟨"x"⟩, ⟨"f"⟩, ⟨"y"⟩⟩] = .ok pattern ∧
      Graph.ofEntries ⟨"H"⟩ [.edge ⟨⟨"a"⟩, ⟨"1"⟩, ⟨"a"⟩⟩, .edge ⟨⟨"a"⟩, ⟨"2"⟩, ⟨"b"⟩⟩] = .ok host ∧
      s = (PartialMatch.start pattern host true).pair
        ⟨⟨⟨"x"⟩, ⟨"e"⟩, ⟨"y"⟩⟩, ⟨⟨"a"⟩, ⟨"2"⟩, ⟨"b"⟩⟩⟩ ∧
      Reached pattern host true s ∧ Grown pattern host true s ∧
      ∀ p : Pairing, s.canApply p = true ↔ p.pattern ∈ s.unmatched ∧ p.host ∈ host.elements ∧
        (p.pattern.IsNode ↔ p.host.IsNode) ∧ Consistent true s p := by
  refine ⟨_, _, _, rfl, rfl, rfl, ?_, ?_⟩
  · exact .step .start rfl
  · exact grown_and_canApply_iff (.step .start rfl)

end Reached

end PartialMatch

end GraphHom
