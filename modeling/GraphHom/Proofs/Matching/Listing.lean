import GraphHom.Matching.NameSupply
import GraphHom.Proofs.Morphism.Construction
import Mathlib.Data.List.Forall2
import Mathlib.Data.List.Nodup

/-!
# Lists of matches

A matcher finds label maps and hands them out as named morphisms. `IsMatch` says which maps it is to
find, and `ListsMaps` that a list of morphisms holds just the maps wanted, each once.

Naming loses nothing: if every map found preserves structure, none is refused, and the morphisms list
the maps that were found (`exists_morphisms_listsMaps`).
-/

namespace GraphHom

/-- A match of a pattern in a host is a map that preserves its structure and, where this is asked,
gives different labels different images. -/
structure IsMatch (pattern host : Graph) (injective : Bool) (m : LabelMap) : Prop where
  /-- The map preserves structure. -/
  isHom : IsHom pattern host m
  /-- The map does not identify labels, if it must not. -/
  injective : injective = true → m.Injective

/-- The morphisms of a list go between two given graphs, and their maps are those that satisfy `P`,
each once. -/
structure ListsMaps (domain codomain : Graph) (P : LabelMap → Prop) (ms : List Morphism) : Prop where
  /-- Every morphism goes between the two graphs. -/
  between : ∀ m ∈ ms, m.domain = domain ∧ m.codomain = codomain
  /-- No map occurs twice. -/
  nodup : (ms.map Morphism.mapping).Nodup
  /-- The maps are those wanted. -/
  mem_iff : ∀ f, f ∈ ms.map Morphism.mapping ↔ P f

theorem ListsMaps.congr {domain codomain : Graph} {P Q : LabelMap → Prop} {ms : List Morphism}
    (h : ListsMaps domain codomain P ms) (hPQ : ∀ f, P f ↔ Q f) : ListsMaps domain codomain Q ms :=
  ⟨h.between, h.nodup, fun f => (h.mem_iff f).trans (hPQ f)⟩

/-- Two lists of the same maps have the same maps in some order. -/
theorem ListsMaps.perm {domain codomain : Graph} {P : LabelMap → Prop} {ms ms' : List Morphism}
    (h : ListsMaps domain codomain P ms) (h' : ListsMaps domain codomain P ms') :
    (ms.map Morphism.mapping).Perm (ms'.map Morphism.mapping) :=
  (List.perm_ext_iff_of_nodup h.nodup h'.nodup).mpr fun f => (h.mem_iff f).trans (h'.mem_iff f).symm

namespace NameSupply

/-- Lists of pairs that describe structure-preserving maps are all named, in their order. -/
theorem exists_morphisms {domain codomain : Graph} {l : List (List (Name × Name))}
    (h : ∀ pairs ∈ l, ∃ f, LabelMap.ofPairs pairs = .ok f ∧ IsHom domain codomain f)
    (s : NameSupply) :
    ∃ ms, (s.morphisms domain codomain l).1 = .ok ms ∧
      List.Forall₂ (fun pairs m => m.domain = domain ∧ m.codomain = codomain ∧
        LabelMap.ofPairs pairs = .ok m.mapping) l ms := by
  induction l generalizing s with
  | nil => exact ⟨[], rfl, List.Forall₂.nil⟩
  | cons pairs l ih =>
    obtain ⟨f, hf, hhom⟩ := h pairs List.mem_cons_self
    obtain ⟨m, hm, hdom, hcod, hmap⟩ := Morphism.exists_ofPairs s.fresh.1 hf hhom
    obtain ⟨ms, hms, hall⟩ := ih (fun q hq => h q (List.mem_cons_of_mem pairs hq)) s.fresh.2
    refine ⟨m :: ms, ?_, List.Forall₂.cons ⟨hdom, hcod, hmap ▸ hf⟩ hall⟩
    simp only [morphisms, morphism, hm, hms]
    rfl

/-- **Naming loses nothing.** Where every list of pairs describes a structure-preserving map, the
morphisms list the maps described. -/
theorem exists_morphisms_listsMaps {domain codomain : Graph} {P : LabelMap → Prop}
    {l : List (List (Name × Name))}
    (hhom : ∀ pairs ∈ l, ∃ f, LabelMap.ofPairs pairs = .ok f ∧ IsHom domain codomain f)
    (hP : ∀ f, P f ↔ ∃ pairs ∈ l, LabelMap.ofPairs pairs = .ok f)
    (hne : l.Pairwise fun pairs pairs' =>
      ∀ f, LabelMap.ofPairs pairs = .ok f → LabelMap.ofPairs pairs' ≠ .ok f)
    (s : NameSupply) :
    ∃ ms, (s.morphisms domain codomain l).1 = .ok ms ∧ ListsMaps domain codomain P ms := by
  obtain ⟨ms, hms, hall⟩ := exists_morphisms hhom s
  obtain ⟨hlen, hget⟩ := List.forall₂_iff_get.mp hall
  -- the morphism at a position has the map that the pairs at this position describe
  refine ⟨ms, hms, ?_, ?_, ?_⟩
  · intro m hm
    obtain ⟨i, hi, rfl⟩ := List.getElem_of_mem hm
    obtain ⟨hdom, hcod, -⟩ := hget i (hlen ▸ hi) hi
    exact ⟨hdom, hcod⟩
  · show (ms.map Morphism.mapping).Nodup
    rw [List.Nodup, List.pairwise_map, List.pairwise_iff_getElem]
    intro i j hi hj hij heq
    have hne' := List.pairwise_iff_getElem.mp hne i j (hlen ▸ hi) (hlen ▸ hj) hij
    obtain ⟨-, -, hfi⟩ := hget i (hlen ▸ hi) hi
    obtain ⟨-, -, hfj⟩ := hget j (hlen ▸ hj) hj
    exact hne' _ hfi (heq ▸ hfj)
  · intro f
    show f ∈ ms.map Morphism.mapping ↔ P f
    rw [List.mem_map, hP]
    constructor
    · rintro ⟨m, hm, rfl⟩
      obtain ⟨i, hi, rfl⟩ := List.getElem_of_mem hm
      obtain ⟨-, -, hf⟩ := hget i (hlen ▸ hi) hi
      exact ⟨l[i], List.getElem_mem _, hf⟩
    · rintro ⟨pairs, hpairs, hf⟩
      obtain ⟨i, hi, rfl⟩ := List.getElem_of_mem hpairs
      have hims : i < ms.length := hlen ▸ hi
      obtain ⟨-, -, hf'⟩ := hget i hi hims
      exact ⟨ms[i], List.getElem_mem hims, Except.ok.inj (hf'.symm.trans hf)⟩

/-- Maps are named by way of their pairs. -/
theorem exists_morphisms_pairs {domain codomain : Graph} {l : List LabelMap}
    (hhom : ∀ f ∈ l, IsHom domain codomain f) (hnodup : l.Nodup) (s : NameSupply) :
    ∃ ms, (s.morphisms domain codomain (l.map LabelMap.pairs)).1 = .ok ms ∧
      ListsMaps domain codomain (· ∈ l) ms := by
  refine exists_morphisms_listsMaps ?_ ?_ ?_ s
  · intro pairs hpairs
    obtain ⟨f, hf, rfl⟩ := List.mem_map.mp hpairs
    exact ⟨f, LabelMap.ofPairs_pairs, hhom f hf⟩
  · intro f
    constructor
    · intro hf
      exact ⟨f.pairs, List.mem_map_of_mem hf, LabelMap.ofPairs_pairs⟩
    · rintro ⟨pairs, hpairs, hf⟩
      obtain ⟨f', hf', rfl⟩ := List.mem_map.mp hpairs
      rw [LabelMap.ofPairs_pairs] at hf
      exact Except.ok.inj hf ▸ hf'
  · rw [List.pairwise_map]
    refine hnodup.imp fun {f f'} hne f'' hf hf' => hne ?_
    rw [LabelMap.ofPairs_pairs] at hf hf'
    exact Except.ok.inj (hf.trans hf'.symm)

end NameSupply

end GraphHom
