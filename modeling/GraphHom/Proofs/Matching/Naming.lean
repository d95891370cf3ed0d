import GraphHom.Matching.NameSupply
import GraphHom.Proofs.Morphism.Construction
import Mathlib.Data.List.Nodup
import Std.Data.String.ToNat

/-!
# The names of matches

A supply hands out the names `stem`, followed by a number, one after the other. No two of them are
the same (`nodup_upcoming`), and none is a name of a supply whose stem goes on with something that is
no digit (`nameAt_ne_nameAt`).

What is named does not depend on the names: lists of pairs that can be named from one supply can be
named from any other, with the same maps, and use up one name each (`exists_handsOut`).
-/

namespace GraphHom

namespace NameSupply

variable {s s' : NameSupply} {i j n k : Nat}

/-! ## Upcoming names -/

/-- The name that is handed out after `i` others. -/
def nameAt (s : NameSupply) (i : Nat) : Name := ⟨s.stem ++ toString (s.next + i)⟩

/-- The next `n` names. -/
def upcoming (s : NameSupply) (n : Nat) : List Name := (List.range n).map s.nameAt

/-- The supply without its next `n` names. -/
def skip (s : NameSupply) (n : Nat) : NameSupply := ⟨s.stem, s.next + n⟩

theorem nameAt_new {stem : String} : (new stem).nameAt i = ⟨stem ++ toString i⟩ := by
  show Name.mk (stem ++ toString (0 + i)) = ⟨stem ++ toString i⟩
  rw [Nat.zero_add]

theorem nameAt_skip : (s.skip n).nameAt i = s.nameAt (n + i) := by
  show Name.mk (s.stem ++ toString (s.next + n + i)) = ⟨s.stem ++ toString (s.next + (n + i))⟩
  rw [Nat.add_assoc]

theorem upcoming_add : s.upcoming (n + k) = s.upcoming n ++ (s.skip n).upcoming k := by
  have hrest : (s.skip n).upcoming k = (List.range k).map fun i => s.nameAt (n + i) :=
    List.map_congr_left fun i _ => nameAt_skip
  rw [upcoming, List.range_add, List.map_append, List.map_map, hrest]
  rfl

theorem take_upcoming : (s.upcoming n).take k = s.upcoming (min k n) := by
  rw [upcoming, ← List.map_take, List.take_range]
  rfl

theorem getElem?_upcoming (h : i < n) : (s.upcoming n)[i]? = some (s.nameAt i) := by
  rw [upcoming, List.getElem?_map, List.getElem?_range h]
  rfl

/-- Different numbers make different names. -/
theorem nameAt_inj : s.nameAt i = s.nameAt j ↔ i = j := by
  constructor
  · intro h
    have htext : s.stem ++ toString (s.next + i) = s.stem ++ toString (s.next + j) :=
      congrArg Name.text h
    have hnumber : s.next + i = s.next + j :=
      Nat.repr_inj.mp ((String.append_right_inj s.stem).mp htext)
    omega
  · rintro rfl
    rfl

theorem nodup_upcoming : (s.upcoming n).Nodup :=
  List.nodup_range.map fun _ _ h => nameAt_inj.mp h

/-- After a stem that goes on with something else than a digit there are other names. -/
theorem nameAt_ne_nameAt {mark : Char} {rest : List Char} (hmark : mark.isDigit = false)
    (hstem : s'.stem.toList = s.stem.toList ++ mark :: rest) : s.nameAt i ≠ s'.nameAt j := by
  intro h
  have htext : (s.stem ++ toString (s.next + i)).toList =
      (s'.stem ++ toString (s'.next + j)).toList := congrArg (fun x => x.text.toList) h
  rw [String.toList_append, String.toList_append, hstem, List.append_assoc] at htext
  -- the mark would stand where the number begins
  have hnumber : (toString (s.next + i)).toList = mark :: (rest ++ (toString (s'.next + j)).toList) :=
    List.append_cancel_left htext
  have hmem : mark ∈ Nat.toDigits 10 (s.next + i) := by
    rw [← Nat.toList_repr]
    show mark ∈ (toString (s.next + i)).toList
    rw [hnumber]
    exact List.mem_cons_self
  rw [Nat.isDigit_of_mem_toDigits (by decide) (by decide) hmem] at hmark
  cases hmark

/-! ## Handing names out -/

variable {domain codomain : Graph} {l : List (List (Name × Name))} {ms ms₀ : List Morphism}

/-- The morphisms have the maps `fs` and are called by the next names of a supply. -/
structure HandsOut (s : NameSupply) (fs : List LabelMap) (ms : List Morphism) : Prop where
  /-- The maps are those named. -/
  mappings_eq : ms.map Morphism.mapping = fs
  /-- Each morphism has used up one name. -/
  names_eq : ms.map Morphism.name = s.upcoming ms.length

/-- What is named in front is called by the names in front. -/
theorem HandsOut.take {fs : List LabelMap} (h : s.HandsOut fs ms) (n : Nat) :
    s.HandsOut (fs.take n) (ms.take n) where
  mappings_eq := by rw [List.map_take, h.mappings_eq]
  names_eq := by rw [List.map_take, h.names_eq, take_upcoming, List.length_take]

/-- Naming what is in front takes the next name; the rest is named after it. -/
theorem of_morphisms_cons {pairs : List (Name × Name)}
    (h : (s.morphisms domain codomain (pairs :: l)).1 = .ok ms) :
    ∃ m rest, ms = m :: rest ∧ Morphism.ofPairs s.fresh.1 domain codomain pairs = .ok m ∧
      (s.fresh.2.morphisms domain codomain l).1 = .ok rest := by
  unfold morphisms morphism at h
  cases hm : Morphism.ofPairs s.fresh.1 domain codomain pairs with
  | error e =>
    simp only [hm] at h
    cases h
  | ok m =>
    simp only [hm] at h
    cases hrest : (s.fresh.2.morphisms domain codomain l).1 with
    | error e =>
      rw [hrest] at h
      cases h
    | ok rest =>
      rw [hrest] at h
      cases h
      exact ⟨m, rest, rfl, rfl, rfl⟩

/-- The morphisms that are named have the maps that are described. -/
theorem map_ofPairs_of_morphisms (h : (s.morphisms domain codomain l).1 = .ok ms) :
    l.map LabelMap.ofPairs = ms.map fun m => .ok m.mapping := by
  induction l generalizing s ms with
  | nil =>
    cases h
    rfl
  | cons pairs l ih =>
    obtain ⟨m, rest, rfl, hm, hrest⟩ := of_morphisms_cons h
    obtain ⟨-, -, -, hpairs⟩ := Morphism.ofPairs_eq_ok_iff.mp hm
    rw [List.map_cons, List.map_cons, hpairs, ih hrest]

/-- **Names make no difference.** What can be named from one supply can be named from any other, with
the same maps, under the next names of that supply. -/
theorem exists_handsOut (h : (s'.morphisms domain codomain l).1 = .ok ms₀) (s : NameSupply) :
    ∃ ms, s.morphisms domain codomain l = (.ok ms, s.skip ms.length) ∧
      s.HandsOut (ms₀.map Morphism.mapping) ms := by
  induction l generalizing s s' ms₀ with
  | nil =>
    cases h
    exact ⟨[], rfl, rfl, rfl⟩
  | cons pairs l ih =>
    obtain ⟨m₀, rest₀, rfl, hm₀, hrest₀⟩ := of_morphisms_cons h
    -- the map of the first morphism preserves structure, whatever the morphism is called
    obtain ⟨-, hdom, hcod, hpairs⟩ := Morphism.ofPairs_eq_ok_iff.mp hm₀
    have hhom : IsHom domain codomain m₀.mapping := hdom ▸ hcod ▸ m₀.isHom
    have hm : Morphism.ofPairs s.fresh.1 domain codomain pairs =
        .ok ⟨s.fresh.1, domain, codomain, m₀.mapping, hhom⟩ :=
      Morphism.ofPairs_eq_ok_iff.mpr ⟨rfl, rfl, rfl, hpairs⟩
    obtain ⟨rest, hrest, hout⟩ := ih hrest₀ s.fresh.2
    refine ⟨⟨s.fresh.1, domain, codomain, m₀.mapping, hhom⟩ :: rest, ?_, ?_, ?_⟩
    · have hskip : s.fresh.2.skip rest.length = s.skip (rest.length + 1) := by
        show NameSupply.mk s.stem (s.next + 1 + rest.length) = ⟨s.stem, s.next + (rest.length + 1)⟩
        congr 1
        omega
      simp only [morphisms, morphism, hm, hrest, hskip]
      rfl
    · rw [List.map_cons, List.map_cons, hout.mappings_eq]
    · rw [List.map_cons, hout.names_eq, List.length_cons, Nat.add_comm, upcoming_add]
      rfl

end NameSupply

end GraphHom
