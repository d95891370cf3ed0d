import GraphHom.Proofs.Matching.Naming
import GraphHom.Proofs.Matching.Typed

/-!
# Matches within a span

Two morphisms of any kind, `relevant` and `projection`, tell which elements of one codomain may be sent
to which elements of the other: those that an element of both domains is sent to. The domains need not
be one graph; an element of one that is none of the other counts for nothing, and that several elements
lie over one pair makes no difference. `IsSpanMatch` says which maps keep to this.

`formulateTyped` offers every element just what it may be sent to (`mem_spanCandidates_iff_exists`), of
its kind because both morphisms keep kinds, and each once because repetitions have been removed
(`offers_spanCandidates`). So the problem can always be built, its solutions describe the maps within the
span, injective ones if they are asked for, each once, and every solution makes a morphism
(`Morphism.exists_formulateTyped_listing`).
-/

namespace GraphHom

namespace Morphism

/-- A match of the codomain of `relevant` in that of `projection` that sends every label to one to which
an element of both domains connects it. -/
structure IsSpanMatch (relevant projection : Morphism) (injective : Bool) (f : LabelMap) : Prop where
  /-- The map is a match, injective if this is asked. -/
  isMatch : IsMatch relevant.codomain projection.codomain injective f
  /-- An element of both domains goes to the label and to its image. -/
  connected : ∀ x ∈ relevant.codomain.labels, ∃ e ∈ relevant.domain.elements,
    e ∈ projection.domain.elements ∧ relevant.apply e.label = some x ∧
      projection.apply e.label = f.get? x

variable {relevant projection : Morphism} {injective : Bool} {f : LabelMap}

/-- The matches that keep to what is offered are the matches within the span. -/
theorem isSpanMatch_iff :
    IsMatch relevant.codomain projection.codomain injective f ∧
        MatchProblem.KeepsTo relevant.codomain projection.codomain
          (spanCandidates relevant projection) f ↔
      IsSpanMatch relevant projection injective f := by
  constructor
  · rintro ⟨hf, hkeeps⟩
    refine ⟨hf, fun x hx => ?_⟩
    obtain ⟨t, ht, rfl⟩ := Graph.mem_labels_iff.mp hx
    obtain ⟨u, hu, -, hlabel, -⟩ := hf.isHom.exists_image t ht
    obtain ⟨e, ⟨he, -, hrelevant⟩, he', -, hprojection⟩ :=
      mem_spanCandidates_iff_exists.mp (hkeeps t ht u hu hlabel)
    exact ⟨e, he, he', hrelevant, hprojection.trans hlabel.symm⟩
  · rintro ⟨hf, hconnected⟩
    refine ⟨hf, fun t ht u hu hlabel => mem_spanCandidates_iff_exists.mpr ?_⟩
    obtain ⟨e, he, he', hrelevant, hprojection⟩ := hconnected t.label (Graph.label_mem_labels ht)
    -- the connecting element has the kind of what it is sent to
    have hkind : e.IsNode ↔ t.IsNode := isNode_iff_of_apply he ht hrelevant
    exact ⟨e, ⟨he, hkind, hrelevant⟩, he', hu, hprojection.trans hlabel⟩

/-- **Solving within a span.** For any two morphisms the problem can be built. Read as label pairs, its
solutions describe the matches within the span, each once; and each of them makes a morphism between the
two codomains, under any name. -/
theorem exists_formulateTyped_listing (relevant projection : Morphism) (injective : Bool) :
    ∃ (p : MatchProblem) (fs : List LabelMap),
      formulateTyped relevant projection injective = .ok p ∧
      (p.solveAll.map fun A => LabelMap.ofPairs (MatchProblem.labelPairs A)) = fs.map .ok ∧
      fs.Nodup ∧ (∀ f, f ∈ fs ↔ IsSpanMatch relevant projection injective f) ∧
      ∀ A ∈ p.solveAll, ∀ names : NameSupply, ∃ m,
        reconstruct A relevant.codomain projection.codomain names = (.ok m, names.fresh.2) ∧
        m.name = names.fresh.1 ∧ m.domain = relevant.codomain ∧ m.codomain = projection.codomain ∧
        LabelMap.ofPairs (MatchProblem.labelPairs A) = .ok m.mapping := by
  have hoffers := offers_spanCandidates relevant projection
  obtain ⟨p, hp, hsolved⟩ := MatchProblem.exists_solved hoffers injective
  obtain ⟨ms, hms, hlists⟩ := hsolved (.new "")
  have hmaps := NameSupply.map_ofPairs_of_morphisms hms
  rw [List.map_map] at hmaps
  refine ⟨p, ms.map Morphism.mapping, ?_, ?_, hlists.nodup, fun f => ?_, fun A hA names => ?_⟩
  · rw [formulateTyped_eq, hp]
  · rw [List.map_map]
    exact hmaps
  · rw [hlists.mem_iff f, isSpanMatch_iff]
  · -- the map that a solution describes is that of one of the morphisms
    have hmem : LabelMap.ofPairs (MatchProblem.labelPairs A) ∈
        ms.map fun m => (.ok m.mapping : Except Name LabelMap) := by
      rw [← hmaps]
      exact List.mem_map_of_mem hA
    obtain ⟨m₀, hm₀, hpairs⟩ := List.mem_map.mp hmem
    obtain ⟨hdom, hcod⟩ := hlists.between m₀ hm₀
    have hhom : IsHom relevant.codomain projection.codomain m₀.mapping := hdom ▸ hcod ▸ m₀.isHom
    obtain ⟨m, hm, hmdom, hmcod, hmap⟩ := exists_ofPairs names.fresh.1 hpairs.symm hhom
    have hname : m.name = names.fresh.1 := (ofPairs_eq_ok_iff.mp hm).1
    refine ⟨m, ?_, hname, hmdom, hmcod, ?_⟩
    · show (ofPairs names.fresh.1 relevant.codomain projection.codomain _, names.fresh.2) = _
      rw [hm]
    · rw [← hpairs, hmap]

/-- Of the edges over `e` two connect it to `1`, and one is in one domain only. -/
theorem exists_formulateTyped_listing_parallel :
    ∃ pattern above host below relevant projection p,
      Graph.ofEntries ⟨"P"⟩ [.edge ⟨⟨"x"⟩, ⟨"e"⟩, ⟨"y"⟩⟩] = .ok pattern ∧
      Graph.ofEntries ⟨"R"⟩ [.edge ⟨⟨"a"⟩, ⟨"f"⟩, ⟨"b"⟩⟩, .edge ⟨⟨"a"⟩, ⟨"g"⟩, ⟨"b"⟩⟩,
        .edge ⟨⟨"c"⟩, ⟨"h"⟩, ⟨"b"⟩⟩] = .ok above ∧
      Graph.ofEntries ⟨"H"⟩ [.edge ⟨⟨"u"⟩, ⟨"1"⟩, ⟨"v"⟩⟩, .edge ⟨⟨"u"⟩, ⟨"2"⟩, ⟨"v"⟩⟩] = .ok host ∧
      Graph.ofEntries ⟨"S"⟩ [.edge ⟨⟨"a"⟩, ⟨"f"⟩, ⟨"b"⟩⟩, .edge ⟨⟨"a"⟩, ⟨"g"⟩, ⟨"b"⟩⟩, .node ⟨"d"⟩] =
        .ok below ∧
      Morphism.ofPairs ⟨"r"⟩ above pattern [(⟨"a"⟩, ⟨"x"⟩), (⟨"b"⟩, ⟨"y"⟩), (⟨"c"⟩, ⟨"x"⟩),
        (⟨"f"⟩, ⟨"e"⟩), (⟨"g"⟩, ⟨"e"⟩), (⟨"h"⟩, ⟨"e"⟩)] = .ok relevant ∧
      Morphism.ofPairs ⟨"p"⟩ below host [(⟨"a"⟩, ⟨"u"⟩), (⟨"b"⟩, ⟨"v"⟩), (⟨"d"⟩, ⟨"u"⟩),
        (⟨"f"⟩, ⟨"1"⟩), (⟨"g"⟩, ⟨"1"⟩)] = .ok projection ∧
      formulateTyped relevant projection true = .ok p ∧
      ∃ f, LabelMap.ofPairs [(⟨"x"⟩, ⟨"u"⟩), (⟨"e"⟩, ⟨"1"⟩), (⟨"y"⟩, ⟨"v"⟩)] = .ok f ∧
        .ok f ∈ p.solveAll.map fun A => LabelMap.ofPairs (MatchProblem.labelPairs A) := by
  obtain ⟨p, fs, hp, hmaps, -, hmem, -⟩ := exists_formulateTyped_listing _ _ true
  refine ⟨_, _, _, _, _, _, p, rfl, rfl, rfl, rfl, rfl, rfl, hp, _, rfl, ?_⟩
  rw [hmaps]
  refine List.mem_map_of_mem ((hmem _).mpr ⟨⟨?_, fun _ x x' y hx hx' => ?_⟩, ?_⟩)
  · rw [← @fault_eq_none_iff ⟨"m"⟩]
    rfl
  · -- three labels with three images
    have hpairs := fun x y => LabelMap.ofPairs_eq_ok_iff.mp
      (show LabelMap.ofPairs [(⟨"x"⟩, ⟨"u"⟩), (⟨"e"⟩, ⟨"1"⟩), (⟨"y"⟩, ⟨"v"⟩)] = .ok _ from rfl) x y
    rw [hpairs] at hx hx'
    simp only [List.mem_cons, Prod.mk.injEq, List.not_mem_nil, or_false] at hx hx'
    clear hmem hmaps
    grind
  · decide

end Morphism

end GraphHom
