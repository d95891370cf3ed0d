import GraphHom.Proofs.Matching.Reached

/-!
# Pairings in either order

Two edges of a pattern can be matched one before the other or the other way round. Whether both pairings
can be made does not depend on the order: it takes two available elements whose labels can all be bound
together in addition to those that are bound (`Compatible`), and this is symmetric. That edges share ends,
are loops or are parallel makes no exception. Nodes do, since an end of an edge can be paired before the
edge but not after it.

When both can be made, the order leaves no trace. The two partial matches bind the same labels, and of a
partial match that can be reached the binding says all (`Reached.eq_of_binding`). So the two orders meet
again, with the same pairings to be tried next (`Reached.exchange`). What holds for two holds for any number:
a list of edge pairings goes through, or does not, in whatever order it is taken
(`Reached.pairInTurn_perm`).
-/

namespace GraphHom

namespace PartialMatch

variable {pattern host : Graph} {injective : Bool} {s s' : PartialMatch} {p q : Pairing} {x y : Name}

/-! ## What the binding says -/

/-- What is unmatched is taken out of an ordered list, and stays in order. -/
theorem Reached.ascending_unmatched (h : Reached pattern host injective s) :
    Ascending id s.unmatched := by
  induction h with
  | start => exact Ascending.sortBy
  | step _ _ ih => exact List.Pairwise.filter _ ih

/-- **The binding says all about a partial match** that can be reached: what is unmatched, and what is
used. -/
theorem Reached.eq_of_binding (h : Reached pattern host injective s)
    (h' : Reached pattern host injective s') (hbinding : s.binding = s'.binding) : s = s' := by
  have hunmatched : s.unmatched = s'.unmatched := by
    refine h.ascending_unmatched.ext h'.ascending_unmatched fun t => ?_
    rw [h.grown.mem_unmatched_iff, h'.grown.mem_unmatched_iff, hbinding]
  exact h.grown.eq_of_key h'.grown (Prod.ext hunmatched hbinding)

/-! ## Two pairings at once -/

/-- The bound pairs of labels, together with those of two pairings. -/
def BindsWithBoth (s : PartialMatch) (p q : Pairing) (x y : Name) : Prop :=
  s.BindsWith p x y ∨ Binds q.pattern q.host x y

theorem bindsWithBoth_comm : s.BindsWithBoth p q x y ↔ s.BindsWithBoth q p x y := or_right_comm

/-- The elements of a pairing are there to be paired, and are of one kind. -/
structure Available (host : Graph) (s : PartialMatch) (p : Pairing) : Prop where
  /-- The pattern element is still to be matched. -/
  unmatched : p.pattern ∈ s.unmatched
  /-- The host element is one. -/
  mem_host : p.host ∈ host.elements
  /-- Both are nodes, or both are edges. -/
  kind : p.pattern.IsNode ↔ p.host.IsNode

/-- Two pairings of different elements whose labels can all be bound in addition. -/
structure Compatible (host : Graph) (injective : Bool) (s : PartialMatch) (p q : Pairing) : Prop where
  /-- The pairings match different elements. -/
  ne : p.pattern ≠ q.pattern
  /-- The elements of the one are available. -/
  left : Available host s p
  /-- The elements of the other are available. -/
  right : Available host s q
  /-- No label gets two images. -/
  function : Relator.RightUnique (s.BindsWithBoth p q)
  /-- No two labels get one image, if they must not. -/
  injection : injective = true → Relator.LeftUnique (s.BindsWithBoth p q)

theorem Compatible.symm (h : Compatible host injective s p q) : Compatible host injective s q p where
  ne := h.ne.symm
  left := h.right
  right := h.left
  function _ _ _ hy hy' := h.function (bindsWithBoth_comm.mp hy) (bindsWithBoth_comm.mp hy')
  injection hinj _ _ _ hx hx' := h.injection hinj (bindsWithBoth_comm.mp hx) (bindsWithBoth_comm.mp hx')

/-- What can be bound together can be bound by one of the pairings alone. -/
theorem Compatible.consistent (h : Compatible host injective s p q) : Consistent injective s p where
  function _ _ _ hy hy' := h.function (.inl hy) (.inl hy')
  injection hinj _ _ _ hx hx' := h.injection hinj (.inl hx) (.inl hx')

/-! ## One after the other -/

/-- A pairing does not take out an edge that it does not match. -/
theorem mem_unmatched_pair_iff_of_isEdge (hq : q.pattern.IsEdge) :
    q.pattern ∈ (s.pair p).unmatched ↔ q.pattern ∈ s.unmatched ∧ p.pattern ≠ q.pattern := by
  rw [mem_unmatched_pair_iff, ne_comm (a := q.pattern)]
  refine and_congr_right fun _ => and_iff_left ?_
  exact fun hbound => hq.not_isNode hbound.1

namespace Grown

/-- After one pairing, the labels to be bound with the other are those of both. -/
theorem bindsWith_pair_iff (h : Grown pattern host injective s) (hp : s.Admissible p) :
    (s.pair p).BindsWith q x y ↔ s.BindsWithBoth p q x y :=
  or_congr_left (h.get?_pair_iff hp)

/-- **An edge can be paired after another pairing** exactly if the two are compatible. -/
theorem canApply_and_canApply_pair_iff (h : Grown pattern host injective s) (hq : q.pattern.IsEdge) :
    s.canApply p = true ∧ (s.pair p).canApply q = true ↔ Compatible host injective s p q := by
  constructor
  · rintro ⟨hp, hthen⟩
    have hadmissible : s.Admissible p := PartialMatch.canApply_iff.mp hp
    obtain ⟨hunmatched, hhost, hkind, -⟩ := h.canApply_iff.mp hp
    obtain ⟨hunmatched', hhost', hkind', hc⟩ := (h.pair hadmissible).canApply_iff.mp hthen
    obtain ⟨hmem, hne⟩ := (mem_unmatched_pair_iff_of_isEdge hq).mp hunmatched'
    have hbinds : ∀ {x y}, s.BindsWithBoth p q x y → (s.pair p).BindsWith q x y :=
      (h.bindsWith_pair_iff hadmissible).mpr
    exact
      { ne := hne
        left := ⟨hunmatched, hhost, hkind⟩
        right := ⟨hmem, hhost', hkind'⟩
        function := fun _ _ _ hy hy' => hc.function (hbinds hy) (hbinds hy')
        injection := fun hinj _ _ _ hx hx' => hc.injection hinj (hbinds hx) (hbinds hx') }
  · intro hpq
    have hp : s.canApply p = true :=
      h.canApply_iff.mpr ⟨hpq.left.unmatched, hpq.left.mem_host, hpq.left.kind, hpq.consistent⟩
    have hadmissible : s.Admissible p := PartialMatch.canApply_iff.mp hp
    have hbinds : ∀ {x y}, (s.pair p).BindsWith q x y → s.BindsWithBoth p q x y :=
      (h.bindsWith_pair_iff hadmissible).mp
    refine ⟨hp, (h.pair hadmissible).canApply_iff.mpr ⟨?_, hpq.right.mem_host, hpq.right.kind, ?_⟩⟩
    · exact (mem_unmatched_pair_iff_of_isEdge hq).mpr ⟨hpq.right.unmatched, hpq.ne⟩
    · exact ⟨fun _ _ _ hy hy' => hpq.function (hbinds hy) (hbinds hy'),
        fun hinj _ _ _ hx hx' => hpq.injection hinj (hbinds hx) (hbinds hx')⟩

/-- Either order binds the labels of both pairings. -/
theorem binding_pair_pair_comm (h : Grown pattern host injective s) (hp : s.Admissible p)
    (hthen : (s.pair p).Admissible q) (hq : s.Admissible q) (hthen' : (s.pair q).Admissible p) :
    ((s.pair p).pair q).binding = ((s.pair q).pair p).binding := by
  refine LabelMap.ext_get? fun x => Option.ext fun y => ?_
  calc ((s.pair p).pair q).binding.get? x = some y
      ↔ (s.pair p).BindsWith q x y := (h.pair hp).get?_pair_iff hthen
    _ ↔ s.BindsWithBoth p q x y := h.bindsWith_pair_iff hp
    _ ↔ s.BindsWithBoth q p x y := bindsWithBoth_comm
    _ ↔ (s.pair q).BindsWith p x y := (h.bindsWith_pair_iff hq).symm
    _ ↔ ((s.pair q).pair p).binding.get? x = some y := ((h.pair hq).get?_pair_iff hthen').symm

end Grown

/-! ## Either order -/

namespace Reached

/-- **Two orders meet again.** If one edge can be paired after another one, then the other one can be
paired after it, and both orders lead to the same partial match. -/
theorem pair_pair_comm (h : Reached pattern host injective s) (hp : p.pattern.IsEdge)
    (hq : q.pattern.IsEdge) (hfirst : s.canApply p = true) (hthen : (s.pair p).canApply q = true) :
    s.canApply q = true ∧ (s.pair q).canApply p = true ∧ (s.pair p).pair q = (s.pair q).pair p := by
  have hpq : Compatible host injective s p q :=
    (h.grown.canApply_and_canApply_pair_iff hq).mp ⟨hfirst, hthen⟩
  obtain ⟨hfirst', hthen'⟩ := (h.grown.canApply_and_canApply_pair_iff hp).mpr hpq.symm
  have hbinding : ((s.pair p).pair q).binding = ((s.pair q).pair p).binding :=
    h.grown.binding_pair_pair_comm (canApply_iff.mp hfirst) (canApply_iff.mp hthen)
      (canApply_iff.mp hfirst') (canApply_iff.mp hthen')
  exact ⟨hfirst', hthen',
    eq_of_binding ((h.step hfirst).step hthen) ((h.step hfirst').step hthen') hbinding⟩

/-- **Edges can be paired in either order.** From any partial match that can be reached, one pairing of an
edge is admissible and another one after it exactly if they are in the opposite order, which is if they are
compatible; and then both orders lead to the same partial match, where the same is bound, used and
unmatched, and the same is offered. -/
theorem exchange (h : Reached pattern host injective s) (hp : p.pattern.IsEdge)
    (hq : q.pattern.IsEdge) :
    (s.canApply p = true ∧ (space.apply s p).2.canApply q = true ↔
      s.canApply q = true ∧ (space.apply s q).2.canApply p = true) ∧
    (s.canApply p = true ∧ (space.apply s p).2.canApply q = true ↔
      Compatible host injective s p q) ∧
    (s.canApply p = true → (space.apply s p).2.canApply q = true →
      space.apply (space.apply s p).2 q = space.apply (space.apply s q).2 p) := by
  refine ⟨?_, h.grown.canApply_and_canApply_pair_iff hq, fun hfirst hthen => ?_⟩
  · constructor
    · rintro ⟨hfirst, hthen⟩
      obtain ⟨hfirst', hthen', -⟩ := h.pair_pair_comm hp hq hfirst hthen
      exact ⟨hfirst', hthen'⟩
    · rintro ⟨hfirst, hthen⟩
      obtain ⟨hfirst', hthen', -⟩ := h.pair_pair_comm hq hp hfirst hthen
      exact ⟨hfirst', hthen'⟩
  · obtain ⟨-, -, hmeet⟩ := h.pair_pair_comm hp hq hfirst hthen
    calc space.apply (s.pair p) q
        = (((s.pair p).pair q).offered, (s.pair p).pair q) := rfl
      _ = (((s.pair q).pair p).offered, (s.pair q).pair p) := by rw [hmeet]
      _ = space.apply (s.pair q) p := rfl

/-- Two edges there and back, one end of which a loop has bound. -/
theorem exchange_circle :
    ∃ pattern host s p q,
      Graph.ofEntries ⟨"P"⟩ [.edge ⟨⟨"x"⟩, ⟨"l"⟩, ⟨"x"⟩⟩, .edge ⟨⟨"x"⟩, ⟨"e"⟩, ⟨"y"⟩⟩,
        .edge ⟨⟨"y"⟩, ⟨"f"⟩, ⟨"x"⟩⟩] = .ok pattern ∧
      Graph.ofEntries ⟨"H"⟩ [.edge ⟨⟨"a"⟩, ⟨"0"⟩, ⟨"a"⟩⟩, .edge ⟨⟨"a"⟩, ⟨"1"⟩, ⟨"b"⟩⟩,
        .edge ⟨⟨"b"⟩, ⟨"2"⟩, ⟨"a"⟩⟩] = .ok host ∧
      s = (PartialMatch.start pattern host true).pair
        ⟨⟨⟨"x"⟩, ⟨"l"⟩, ⟨"x"⟩⟩, ⟨⟨"a"⟩, ⟨"0"⟩, ⟨"a"⟩⟩⟩ ∧
      Reached pattern host true s ∧
      p = ⟨⟨⟨"x"⟩, ⟨"e"⟩, ⟨"y"⟩⟩, ⟨⟨"a"⟩, ⟨"1"⟩, ⟨"b"⟩⟩⟩ ∧ p.pattern.IsEdge ∧
      q = ⟨⟨⟨"y"⟩, ⟨"f"⟩, ⟨"x"⟩⟩, ⟨⟨"b"⟩, ⟨"2"⟩, ⟨"a"⟩⟩⟩ ∧ q.pattern.IsEdge ∧
      s.canApply p = true ∧ (space.apply s p).2.canApply q = true ∧
      s.canApply q = true ∧ (space.apply s q).2.canApply p = true ∧
      space.apply (space.apply s p).2 q = space.apply (space.apply s q).2 p := by
  refine ⟨_, _, _, _, _, rfl, rfl, rfl, ?reached, rfl, ?left, rfl, ?right, ?first, ?second,
    ((exchange ?reached ?left ?right).1.mp ⟨?first, ?second⟩).1,
    ((exchange ?reached ?left ?right).1.mp ⟨?first, ?second⟩).2,
    (exchange ?reached ?left ?right).2.2 ?first ?second⟩
  case reached => exact .step .start rfl
  case left => decide
  case right => decide
  case first => rfl
  case second => rfl

/-- A node can be paired before an edge that ends there, but no longer after it. -/
example :
    let e : Triple := ⟨⟨"x"⟩, ⟨"e"⟩, ⟨"y"⟩⟩
    ∃ pattern, Graph.ofEntries ⟨"P"⟩ [.edge e] = .ok pattern ∧
      let s := PartialMatch.start pattern pattern true
      let p : Pairing := ⟨.node ⟨"x"⟩, .node ⟨"x"⟩⟩
      s.canApply p = true ∧ (s.pair p).canApply ⟨e, e⟩ = true ∧
        s.canApply ⟨e, e⟩ = true ∧ (s.pair ⟨e, e⟩).canApply p = false :=
  ⟨_, rfl, rfl, rfl, rfl, rfl⟩

end Reached

/-! ## Any order -/

/-- The partial match to which the pairings lead, if each of them can be made when its turn comes. -/
def pairInTurn (s : PartialMatch) : List Pairing → Option PartialMatch
  | [] => some s
  | p :: ps => if s.canApply p then (s.pair p).pairInTurn ps else none

variable {ps ps' : List Pairing}

theorem pairInTurn_cons : s.pairInTurn (p :: ps) =
    if s.canApply p then (s.pair p).pairInTurn ps else none := rfl

theorem pairInTurn_cons_cons : s.pairInTurn (p :: q :: ps) =
    if s.canApply p = true ∧ (s.pair p).canApply q = true then ((s.pair p).pair q).pairInTurn ps
    else none := by
  rw [pairInTurn_cons, pairInTurn_cons, ite_and]

/-- **Edges can be paired in any order.** The pairings of a list can be made in turn if they can in any
other order of the list, and they lead to the same partial match. -/
theorem Reached.pairInTurn_perm (h : Reached pattern host injective s) (hperm : ps.Perm ps')
    (hedges : ∀ p ∈ ps, p.pattern.IsEdge) : s.pairInTurn ps = s.pairInTurn ps' := by
  induction hperm generalizing s with
  | nil => rfl
  | cons p _ ih =>
    rw [pairInTurn_cons, pairInTurn_cons]
    split
    · rename_i hp
      exact ih (h.step hp) fun q hq => hedges q (List.mem_cons_of_mem p hq)
    · rfl
  | swap q p ps =>
    have hp : p.pattern.IsEdge := hedges p (by simp)
    have hq : q.pattern.IsEdge := hedges q (by simp)
    rw [pairInTurn_cons_cons, pairInTurn_cons_cons]
    by_cases hpq : s.canApply p = true ∧ (s.pair p).canApply q = true
    · obtain ⟨hfirst, hthen, hmeet⟩ := h.pair_pair_comm hp hq hpq.1 hpq.2
      rw [if_pos hpq, if_pos ⟨hfirst, hthen⟩, hmeet]
    · rw [if_neg hpq, if_neg]
      rintro ⟨hfirst, hthen⟩
      obtain ⟨hfirst', hthen', -⟩ := h.pair_pair_comm hq hp hfirst hthen
      exact hpq ⟨hfirst', hthen'⟩
  | trans hfirst _ ih ih' =>
    rw [ih h hedges, ih' h fun p hp => hedges p (hfirst.mem_iff.mpr hp)]

end PartialMatch

end GraphHom
