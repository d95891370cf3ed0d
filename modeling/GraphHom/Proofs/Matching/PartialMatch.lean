import GraphHom.Matching.Growth
import GraphHom.Proofs.Matching.Listing

/-!
# Partial matches

What is known of a match while it is being grown. `Grown` is the invariant: the bound part of the
pattern is matched as a whole, and what is unmatched is exactly what is not bound. It holds of the
start (`grown_start`) and every admissible pairing keeps it (`Grown.pair`).

A partial match grows towards the matches that extend it:

* `Grown.isMatch`, `Grown.eq_binding` — where nothing is unmatched, the binding is a match, and it is
  the only one that extends it;
* `Grown.admissible_of_isMatch`, `Grown.submap_pair` — an unmatched element may be paired with its
  image under any match that extends the binding, and that match extends the result.
-/

namespace GraphHom

/-- Every pair of `m` is a pair of `f`. -/
def LabelMap.Submap (m f : LabelMap) : Prop := ∀ x y, m.get? x = some y → f.get? x = some y

namespace PartialMatch

variable {s : PartialMatch} {x y z w : Name}

/-! ## Binding one label -/

theorem isFree_iff : s.isFree y = true ↔ (s.injective = true → y ∉ s.used) := by
  unfold isFree
  cases s.injective <;> simp

theorem endFits_iff : s.endFits x y = true ↔ s.binding.get? x = some y ∨
    (s.binding.get? x = none ∧ (s.injective = true → y ∉ s.used)) := by
  unfold endFits
  split
  · rename_i bound hbound
    simp [hbound]
  · rename_i hnone
    simp [hnone, isFree_iff]

theorem get?_bind_self : (s.bind x y).binding.get? x = some y := by
  rw [bind, LabelMap.get?_insert, if_pos rfl]

theorem get?_bind_of_ne (h : z ≠ x) : (s.bind x y).binding.get? z = s.binding.get? z := by
  rw [bind, LabelMap.get?_insert, if_neg h]

/-- A fitting image only adds its pair to the binding. -/
theorem get?_bind_iff (h : s.endFits x y = true) :
    (s.bind x y).binding.get? z = some w ↔ s.binding.get? z = some w ∨ (z = x ∧ w = y) := by
  by_cases hz : z = x
  · subst hz
    rw [get?_bind_self, Option.some.injEq]
    rcases endFits_iff.mp h with hbound | ⟨hnone, -⟩
    · simp [hbound, eq_comm]
    · simp [hnone, eq_comm]
  · rw [get?_bind_of_ne hz]
    simp [hz]

theorem endFits_bind_self : (s.bind x y).endFits x y = true :=
  endFits_iff.mpr (.inl get?_bind_self)

/-- What fits still fits after another label has been bound, unless the image is taken by it. -/
theorem endFits_bind_of_ne (hz : z ≠ x) (h : s.endFits z w = true)
    (hw : s.binding.get? z = none → s.injective = true → w ≠ y) :
    (s.bind x y).endFits z w = true := by
  rw [endFits_iff, get?_bind_of_ne hz]
  refine (endFits_iff.mp h).imp id ?_
  rintro ⟨hnone, hfree⟩
  refine ⟨hnone, fun hinj hused => ?_⟩
  rcases eq_or_mem_of_mem_insertBy hused with heq | hmem
  · exact hw hnone hinj heq
  · exact hfree hinj hmem

/-- The used labels are the images, and an injective match has bound no two labels to one. -/
structure Tracks (s : PartialMatch) : Prop where
  /-- The used labels stand in ascending order. -/
  ascending : Ascending id s.used
  /-- They are the images of the bound labels. -/
  mem_used_iff : ∀ y, y ∈ s.used ↔ ∃ x, s.binding.get? x = some y
  /-- Different labels have different images, if they must. -/
  binding_injective : s.injective = true → s.binding.Injective

theorem Tracks.bind (hs : s.Tracks) (h : s.endFits x y = true) : (s.bind x y).Tracks where
  ascending := hs.ascending.insertBy
  mem_used_iff w := by
    simp only [get?_bind_iff h]
    show w ∈ insertBy id y s.used ↔ _
    rw [mem_insertBy_iff hs.ascending, hs.mem_used_iff]
    constructor
    · rintro (rfl | ⟨⟨z, hz⟩, -⟩)
      · exact ⟨x, .inr ⟨rfl, rfl⟩⟩
      · exact ⟨z, .inl hz⟩
    · rintro ⟨z, hz | ⟨rfl, rfl⟩⟩
      · by_cases hw : w = y
        · exact .inl hw
        · exact .inr ⟨⟨z, hz⟩, hw⟩
      · exact .inl rfl
  binding_injective hinj := by
    have hold : s.binding.Injective := hs.binding_injective hinj
    -- a label that already has the image `y` is `x`
    have hfresh : ∀ z, s.binding.get? z = some y → z = x := by
      intro z hz
      rcases endFits_iff.mp h with hbound | ⟨-, hfree⟩
      · exact hold z x y hz hbound
      · exact absurd ((hs.mem_used_iff y).mpr ⟨z, hz⟩) (hfree hinj)
    intro z z' w hz hz'
    rw [get?_bind_iff h] at hz hz'
    rcases hz with hz | ⟨rfl, rfl⟩
    · rcases hz' with hz' | ⟨rfl, rfl⟩
      · exact hold z z' w hz hz'
      · exact hfresh z hz
    · rcases hz' with hz' | ⟨rfl, -⟩
      · exact (hfresh z' hz').symm
      · rfl

/-! ## Admissible pairings -/

/-- What makes a pairing admissible. -/
structure Admissible (s : PartialMatch) (p : Pairing) : Prop where
  /-- The pattern element is still to be matched. -/
  unmatched : p.pattern ∈ s.unmatched
  /-- The host element is one. -/
  mem_host : p.host ∈ s.host.elements
  /-- Both are nodes, or both are edges. -/
  kind : p.pattern.IsNode ↔ p.host.IsNode
  /-- The pattern label is not bound. -/
  unbound : s.binding.get? p.pattern.label = none
  /-- The host label may be an image. -/
  free : s.isFree p.host.label = true
  /-- A loop goes to a loop. -/
  loop : p.pattern.source = p.pattern.target → p.host.source = p.host.target
  /-- The sources fit. -/
  source : s.endFits p.pattern.source p.host.source = true
  /-- The targets fit. -/
  target : s.endFits p.pattern.target p.host.target = true
  /-- In an injective match two open ends go to different nodes. -/
  openEnds : s.injective = true → p.pattern.source ≠ p.pattern.target →
    s.binding.get? p.pattern.source = none → s.binding.get? p.pattern.target = none →
    p.host.source ≠ p.host.target

theorem canApply_iff {p : Pairing} : s.canApply p = true ↔ s.Admissible p := by
  have hopen : (!(s.injective && s.hasTwoOpenEnds p.pattern &&
      decide (p.host.source = p.host.target))) = true ↔
      (s.injective = true → p.pattern.source ≠ p.pattern.target →
        s.binding.get? p.pattern.source = none → s.binding.get? p.pattern.target = none →
        p.host.source ≠ p.host.target) := by
    simp only [hasTwoOpenEnds, Bool.not_eq_true', Bool.and_eq_false_iff, decide_eq_false_iff_not]
    simp only [← Bool.not_eq_true, Option.isNone_iff_eq_none]
    grind
  constructor
  · intro h
    simp only [canApply, Bool.and_eq_true, Bool.or_eq_true, hopen] at h
    obtain ⟨⟨⟨⟨⟨⟨⟨⟨h₁, h₂⟩, h₃⟩, h₄⟩, h₅⟩, h₆⟩, h₇⟩, h₈⟩, h₉⟩ := h
    exact ⟨of_decide_eq_true h₁, of_decide_eq_true h₂, of_decide_eq_true h₃,
      Option.isNone_iff_eq_none.mp h₄, h₅,
      fun heq => h₆.elim (fun hne => absurd heq (of_decide_eq_true hne)) of_decide_eq_true,
      h₇, h₈, h₉⟩
  · intro h
    simp only [canApply, Bool.and_eq_true, Bool.or_eq_true, hopen]
    refine ⟨⟨⟨⟨⟨⟨⟨⟨decide_eq_true h.unmatched, decide_eq_true h.mem_host⟩,
      decide_eq_true h.kind⟩, Option.isNone_iff_eq_none.mpr h.unbound⟩, h.free⟩, ?_⟩, h.source⟩,
      h.target⟩, h.openEnds⟩
    by_cases heq : p.pattern.source = p.pattern.target
    · exact .inr (decide_eq_true (h.loop heq))
    · exact .inl (decide_eq_true heq)

/-! ## Pairings of graph elements -/

section Pairing

variable {p : Pairing}

/-- The three labels of an admissible pairing can be bound one after the other. -/
theorem Admissible.fits (hp : s.Admissible p) (hpattern : p.pattern.IsNode ∨ p.pattern.IsEdge)
    (hhost : p.host.IsNode ∨ p.host.IsEdge) (hs : s.Tracks) :
    s.endFits p.pattern.source p.host.source = true ∧
    (s.bind p.pattern.source p.host.source).endFits p.pattern.label p.host.label = true ∧
    ((s.bind p.pattern.source p.host.source).bind p.pattern.label p.host.label).endFits
      p.pattern.target p.host.target = true := by
  refine ⟨hp.source, ?_⟩
  rcases hpattern with hnode | hedge
  · -- a node is its own source and target, and so is its image
    obtain ⟨hsource, htarget⟩ := hnode
    obtain ⟨hsource', htarget'⟩ := hp.kind.mp ⟨hsource, htarget⟩
    rw [hsource, htarget, hsource', htarget']
    exact ⟨endFits_bind_self, endFits_bind_self⟩
  · have hedge' : p.host.IsEdge := hhost.resolve_left fun h => hedge.not_isNode (hp.kind.mpr h)
    have hlabel : s.endFits p.pattern.label p.host.label = true :=
      endFits_iff.mpr (.inr ⟨hp.unbound, isFree_iff.mp hp.free⟩)
    refine ⟨endFits_bind_of_ne hedge.1.symm hlabel fun _ _ => hedge'.1.symm, ?_⟩
    have htarget : (s.bind p.pattern.source p.host.source).endFits p.pattern.target p.host.target =
        true := by
      by_cases hloop : p.pattern.target = p.pattern.source
      · rw [hloop, ← hp.loop hloop.symm]
        exact endFits_bind_self
      · refine endFits_bind_of_ne hloop hp.target fun hopen hinj heq => ?_
        -- the image of the target is not that of the source, be that one bound or open
        rcases endFits_iff.mp hp.source with hbound | ⟨hopen', -⟩
        · rcases endFits_iff.mp hp.target with hbound' | ⟨-, hfree⟩
          · rw [hopen] at hbound'
            cases hbound'
          · exact hfree hinj ((hs.mem_used_iff _).mpr ⟨_, heq ▸ hbound⟩)
        · exact hp.openEnds hinj (fun h => hloop h.symm) hopen' hopen heq.symm
    exact endFits_bind_of_ne hedge.2 htarget fun _ _ => hedge'.2

/-- What `t` and `u` bind: the source, the label and the target of the one to those of the other. -/
def Binds (t u : Triple) (z w : Name) : Prop :=
  (z = t.source ∧ w = u.source) ∨ (z = t.label ∧ w = u.label) ∨ (z = t.target ∧ w = u.target)

theorem get?_pair_iff (hp : s.Admissible p) (hpattern : p.pattern.IsNode ∨ p.pattern.IsEdge)
    (hhost : p.host.IsNode ∨ p.host.IsEdge) (hs : s.Tracks) :
    (s.pair p).binding.get? z = some w ↔
      s.binding.get? z = some w ∨ Binds p.pattern p.host z w := by
  obtain ⟨h₁, h₂, h₃⟩ := hp.fits hpattern hhost hs
  show (((s.bind p.pattern.source p.host.source).bind p.pattern.label p.host.label).bind
    p.pattern.target p.host.target).binding.get? z = some w ↔ _
  rw [get?_bind_iff h₃, get?_bind_iff h₂, get?_bind_iff h₁]
  simp only [Binds, or_assoc]

theorem Tracks.pair (hs : s.Tracks) (hp : s.Admissible p)
    (hpattern : p.pattern.IsNode ∨ p.pattern.IsEdge) (hhost : p.host.IsNode ∨ p.host.IsEdge) :
    (s.pair p).Tracks := by
  obtain ⟨h₁, h₂, h₃⟩ := hp.fits hpattern hhost hs
  have h := ((hs.bind h₁).bind h₂).bind h₃
  exact ⟨h.ascending, h.mem_used_iff, h.binding_injective⟩

theorem mem_unmatched_pair_iff {t : Triple} : t ∈ (s.pair p).unmatched ↔
    t ∈ s.unmatched ∧ t ≠ p.pattern ∧
      ¬(t.IsNode ∧ ∃ y, (s.pair p).binding.get? t.label = some y) := by
  show t ∈ s.unmatched.filter _ ↔ _
  rw [List.mem_filter]
  simp only [Bool.and_eq_true, decide_eq_true_eq, Bool.not_eq_true', Bool.and_eq_false_iff,
    decide_eq_false_iff_not, not_and_or]
  refine and_congr_right fun _ => and_congr_right fun _ => or_congr_right ?_
  rw [← Option.isSome_iff_exists, Bool.not_eq_true]
  exact Iff.rfl

/-- A pairing takes at least its own element out. -/
theorem length_unmatched_pair_lt (h : p.pattern ∈ s.unmatched) :
    (s.pair p).unmatched.length < s.unmatched.length := by
  refine List.length_filter_lt_length_iff_exists.mpr ⟨p.pattern, h, ?_⟩
  simp

end Pairing

/-! ## The invariant of growth -/

section Grown

variable {pattern host : Graph} {injective : Bool} {f : LabelMap} {t u : Triple} {p : Pairing}

/-- The partial match `s` has been grown from nothing, as a match of `pattern` in `host`. -/
structure Grown (pattern host : Graph) (injective : Bool) (s : PartialMatch) : Prop
    extends Tracks s where
  /-- The host is always the same. -/
  host_eq : s.host = host
  /-- It is injective, or need not be, all the time. -/
  injective_eq : s.injective = injective
  /-- Unmatched are the elements of the pattern that are not bound. -/
  mem_unmatched_iff : ∀ t, t ∈ s.unmatched ↔ t ∈ pattern.elements ∧ s.binding.get? t.label = none
  /-- Only labels of the pattern are bound. -/
  mem_labels : ∀ x y, s.binding.get? x = some y → x ∈ pattern.labels
  /-- A bound element has an image, to whose ends its own are bound. -/
  exists_image : ∀ t ∈ pattern.elements, ∀ y, s.binding.get? t.label = some y →
    ∃ u ∈ host.elements, (t.IsNode ↔ u.IsNode) ∧ u.label = y ∧
      s.binding.get? t.source = some u.source ∧ s.binding.get? t.target = some u.target

theorem grown_start (pattern host : Graph) (injective : Bool) :
    Grown pattern host injective (start pattern host injective) where
  ascending := List.Pairwise.nil
  mem_used_iff y := by simp [start]
  binding_injective _ x x' y h _ := by simp [start] at h
  host_eq := rfl
  injective_eq := rfl
  mem_unmatched_iff t := by
    show t ∈ sortBy id pattern.elements ↔ _
    rw [mem_sortBy_id_iff]
    simp [start]
  mem_labels x y h := by simp [start] at h
  exists_image t _ y h := by simp [start] at h

/-- The ends of an element of a graph, and it itself, are what its three labels name. -/
theorem exists_of_binds (ht : t ∈ pattern.elements) (hu : u ∈ host.elements)
    (hkind : t.IsNode ↔ u.IsNode) (hbinds : Binds t u z w) :
    ∃ t' ∈ pattern.elements, ∃ u' ∈ host.elements, t'.label = z ∧ u'.label = w ∧
      (t'.IsNode ↔ u'.IsNode) ∧ (t' = t ∨ t'.IsNode) ∧ Binds t u t'.source u'.source ∧
      Binds t u t'.target u'.target := by
  rcases hbinds with ⟨rfl, rfl⟩ | ⟨rfl, rfl⟩ | ⟨rfl, rfl⟩
  · exact ⟨.node t.source, (pattern.ends_mem t ht).1, .node u.source, (host.ends_mem u hu).1, rfl,
      rfl, iff_of_true Triple.isNode_node Triple.isNode_node, .inr Triple.isNode_node,
      .inl ⟨rfl, rfl⟩, .inl ⟨rfl, rfl⟩⟩
  · exact ⟨t, ht, u, hu, rfl, rfl, hkind, .inl rfl, .inl ⟨rfl, rfl⟩, .inr (.inr ⟨rfl, rfl⟩)⟩
  · exact ⟨.node t.target, (pattern.ends_mem t ht).2, .node u.target, (host.ends_mem u hu).2, rfl,
      rfl, iff_of_true Triple.isNode_node Triple.isNode_node, .inr Triple.isNode_node,
      .inr (.inr ⟨rfl, rfl⟩), .inr (.inr ⟨rfl, rfl⟩)⟩

namespace Grown

theorem mem_pattern (h : Grown pattern host injective s) (hp : s.Admissible p) :
    p.pattern ∈ pattern.elements :=
  ((h.mem_unmatched_iff _).mp hp.unmatched).1

theorem mem_host (h : Grown pattern host injective s) (hp : s.Admissible p) :
    p.host ∈ host.elements :=
  h.host_eq ▸ hp.mem_host

theorem get?_pair_iff (h : Grown pattern host injective s) (hp : s.Admissible p) :
    (s.pair p).binding.get? z = some w ↔
      s.binding.get? z = some w ∨ Binds p.pattern p.host z w :=
  PartialMatch.get?_pair_iff hp (pattern.isNode_or_isEdge _ (h.mem_pattern hp))
    (host.isNode_or_isEdge _ (h.mem_host hp)) h.toTracks

/-- **Admissible pairings keep the invariant.** -/
theorem pair (h : Grown pattern host injective s) (hp : s.Admissible p) :
    Grown pattern host injective (s.pair p) where
  toTracks := h.toTracks.pair hp (pattern.isNode_or_isEdge _ (h.mem_pattern hp))
    (host.isNode_or_isEdge _ (h.mem_host hp))
  host_eq := h.host_eq
  injective_eq := h.injective_eq
  mem_unmatched_iff t := by
    rw [mem_unmatched_pair_iff, h.mem_unmatched_iff]
    constructor
    · rintro ⟨⟨ht, hnone⟩, hne, hnode⟩
      -- were it bound now, it would be the element paired or a node at one of its ends
      refine ⟨ht, Option.eq_none_iff_forall_ne_some.mpr fun y hy => ?_⟩
      rcases (h.get?_pair_iff hp).mp hy with hold | hbinds
      · rw [hnone] at hold
        cases hold
      · obtain ⟨t', ht', -, -, hlabel, -, -, hcase, -⟩ :=
          exists_of_binds (h.mem_pattern hp) (h.mem_host hp) hp.kind hbinds
        rw [Graph.eq_of_label ht' ht hlabel] at hcase
        exact hcase.elim hne fun hn => hnode ⟨hn, y, hy⟩
    · rintro ⟨ht, hnone⟩
      have hold : s.binding.get? t.label = none := by
        refine Option.eq_none_iff_forall_ne_some.mpr fun y hy => ?_
        rw [(h.get?_pair_iff hp).mpr (.inl hy)] at hnone
        cases hnone
      refine ⟨⟨ht, hold⟩, ?_, ?_⟩
      · rintro rfl
        rw [(h.get?_pair_iff hp).mpr (.inr (.inr (.inl ⟨rfl, rfl⟩)))] at hnone
        cases hnone
      · rintro ⟨-, y, hy⟩
        rw [hnone] at hy
        cases hy
  mem_labels x y hxy := by
    rcases (h.get?_pair_iff hp).mp hxy with hold | hbinds
    · exact h.mem_labels x y hold
    · obtain ⟨t', ht', -, -, hlabel, -⟩ :=
        exists_of_binds (h.mem_pattern hp) (h.mem_host hp) hp.kind hbinds
      exact Graph.mem_labels_iff.mpr ⟨t', ht', hlabel⟩
  exists_image t ht y hy := by
    rcases (h.get?_pair_iff hp).mp hy with hold | hbinds
    · obtain ⟨u, hu, hkind, hlabel, hsource, htarget⟩ := h.exists_image t ht y hold
      exact ⟨u, hu, hkind, hlabel, (h.get?_pair_iff hp).mpr (.inl hsource),
        (h.get?_pair_iff hp).mpr (.inl htarget)⟩
    · -- newly bound: its image is the host element with the label bound to
      obtain ⟨t', ht', u, hu, hlabel, himage, hkind, -, hsource, htarget⟩ :=
        exists_of_binds (h.mem_pattern hp) (h.mem_host hp) hp.kind hbinds
      rw [Graph.eq_of_label ht' ht hlabel] at hkind hsource htarget
      exact ⟨u, hu, hkind, himage, (h.get?_pair_iff hp).mpr (.inr hsource),
        (h.get?_pair_iff hp).mpr (.inr htarget)⟩

/-! ## Towards matches -/

theorem get?_ne_none (h : Grown pattern host injective s) (hall : s.unmatched = [])
    (ht : t ∈ pattern.elements) : ∃ y, s.binding.get? t.label = some y := by
  refine Option.ne_none_iff_exists'.mp fun hnone => ?_
  have hmem := (h.mem_unmatched_iff t).mpr ⟨ht, hnone⟩
  rw [hall] at hmem
  cases hmem

/-- **Where nothing is unmatched, the binding is a match.** -/
theorem isMatch (h : Grown pattern host injective s) (hall : s.unmatched = []) :
    IsMatch pattern host injective s.binding where
  isHom :=
    { mem_labels := h.mem_labels
      exists_image := fun t ht => by
        obtain ⟨y, hy⟩ := h.get?_ne_none hall ht
        obtain ⟨u, hu, hkind, rfl, hends⟩ := h.exists_image t ht y hy
        exact ⟨u, hu, hkind, hy, hends⟩ }
  injective hinj := h.binding_injective (h.injective_eq.trans hinj)

/-- Where nothing is unmatched, only the binding itself extends it. -/
theorem eq_binding (h : Grown pattern host injective s) (hall : s.unmatched = [])
    (hf : IsMatch pattern host injective f) (hsub : s.binding.Submap f) : f = s.binding := by
  refine LabelMap.ext_get? fun x => Option.ext fun y => ⟨fun hxy => ?_, hsub x y⟩
  obtain ⟨t, ht, rfl⟩ := Graph.mem_labels_iff.mp (hf.isHom.mem_labels x y hxy)
  obtain ⟨y', hy'⟩ := h.get?_ne_none hall ht
  have hsame := hsub _ y' hy'
  rw [hxy] at hsame
  rw [hy', Option.some.inj hsame]

/-- Of a match that extends the binding, the images of unbound labels are not used. -/
theorem isFree_of_isMatch (h : Grown pattern host injective s)
    (hf : IsMatch pattern host injective f) (hsub : s.binding.Submap f)
    (hx : s.binding.get? x = none) (hxy : f.get? x = some y) : s.isFree y = true := by
  refine isFree_iff.mpr fun hinj hused => ?_
  obtain ⟨z, hz⟩ := (h.mem_used_iff y).mp hused
  rw [hf.injective (h.injective_eq.symm.trans hinj) x z y hxy (hsub z y hz), hz] at hx
  cases hx

theorem endFits_of_isMatch (h : Grown pattern host injective s)
    (hf : IsMatch pattern host injective f) (hsub : s.binding.Submap f)
    (hxy : f.get? x = some y) : s.endFits x y = true := by
  cases hx : s.binding.get? x with
  | none => exact endFits_iff.mpr (.inr ⟨hx, isFree_iff.mp (h.isFree_of_isMatch hf hsub hx hxy)⟩)
  | some bound =>
    have hbound := hsub x bound hx
    rw [hxy] at hbound
    exact endFits_iff.mpr (.inl (by rw [hx, Option.some.inj hbound]))

/-- **An unmatched element may be paired with its image** under a match that extends the binding. -/
theorem admissible_of_isMatch (h : Grown pattern host injective s)
    (hf : IsMatch pattern host injective f) (hsub : s.binding.Submap f) (ht : t ∈ s.unmatched)
    (hu : u ∈ host.elements) (hlabel : f.get? t.label = some u.label) : s.Admissible ⟨t, u⟩ := by
  obtain ⟨htp, hnone⟩ := (h.mem_unmatched_iff t).mp ht
  obtain ⟨hkind, hsource, htarget⟩ := hf.isHom.exists_image_of_get? htp hu hlabel
  exact
    { unmatched := ht
      mem_host := h.host_eq ▸ hu
      kind := hkind
      unbound := hnone
      free := h.isFree_of_isMatch hf hsub hnone hlabel
      loop := fun heq => by
        simp only at heq ⊢
        rw [heq, htarget] at hsource
        exact (Option.some.inj hsource).symm
      source := h.endFits_of_isMatch hf hsub hsource
      target := h.endFits_of_isMatch hf hsub htarget
      openEnds := fun hinj hne _ _ heq =>
        hne (hf.injective (h.injective_eq.symm.trans hinj) _ _ _ hsource (heq ▸ htarget)) }

/-- A match extends the partial match in which an element has been paired with its image. -/
theorem submap_pair (h : Grown pattern host injective s) (hf : IsMatch pattern host injective f)
    (hsub : s.binding.Submap f) (hp : s.Admissible p)
    (hlabel : f.get? p.pattern.label = some p.host.label) : (s.pair p).binding.Submap f := by
  obtain ⟨-, hsource, htarget⟩ :=
    hf.isHom.exists_image_of_get? (h.mem_pattern hp) (h.mem_host hp) hlabel
  intro x y hxy
  rcases (h.get?_pair_iff hp).mp hxy with hold | ⟨rfl, rfl⟩ | ⟨rfl, rfl⟩ | ⟨rfl, rfl⟩
  · exact hsub x y hold
  · exact hsource
  · exact hlabel
  · exact htarget

/-- What extends a partial match after a pairing has extended it before. -/
theorem submap_of_pair (h : Grown pattern host injective s) (hp : s.Admissible p)
    (hsub : (s.pair p).binding.Submap f) : s.binding.Submap f :=
  fun x y hxy => hsub x y ((h.get?_pair_iff hp).mpr (.inl hxy))

/-- What is unmatched and how labels are bound determines a grown partial match. -/
theorem eq_of_key {s' : PartialMatch} (h : Grown pattern host injective s)
    (h' : Grown pattern host injective s') (hkey : space.key s = space.key s') : s = s' := by
  obtain ⟨hunmatched, hbinding⟩ := Prod.mk.inj hkey
  have hused : s.used = s'.used := by
    refine h.ascending.ext h'.ascending fun y => ?_
    rw [h.mem_used_iff, h'.mem_used_iff, hbinding]
  have hhost := h.host_eq.trans h'.host_eq.symm
  have hinj := h.injective_eq.trans h'.injective_eq.symm
  cases s
  cases s'
  cases hunmatched
  cases hbinding
  cases hused
  cases hhost
  cases hinj
  rfl

end Grown

end Grown

end PartialMatch

end GraphHom
