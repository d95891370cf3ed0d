import GraphHom.Document.Reader

/-!
# The furthest failures

Places are in order (`Place.le_total`, `Place.le_antisymm`), so the furthest of some failures lies nowhere
before any of them (`le_furthest`) and something has failed there (`exists_furthest`).
-/

namespace GraphHom

/-! ## The order of places -/

namespace Place

variable {p q r : Place}

theorem le_def : p ≤ q ↔ p.token < q.token ∨ (p.token = q.token ∧ p.offset ≤ q.offset) := Iff.rfl

theorem le_refl : p ≤ p := .inr ⟨rfl, Nat.le_refl _⟩

theorem first_le : first ≤ p := by
  rw [le_def, first]
  simp only
  omega

theorem le_trans (h : p ≤ q) (h' : q ≤ r) : p ≤ r := by
  rw [le_def] at *
  omega

theorem le_total : p ≤ q ∨ q ≤ p := by
  rw [le_def, le_def]
  omega

theorem le_antisymm (h : p ≤ q) (h' : q ≤ p) : p = q := by
  obtain ⟨n, o⟩ := p
  obtain ⟨n', o'⟩ := q
  rw [le_def] at h h'
  simp only [Place.mk.injEq] at *
  omega

theorem le_max : p ≤ max p q ∧ q ≤ max p q := by
  have hmax : max p q = if p ≤ q then q else p := rfl
  rw [hmax]
  split
  · rename_i h
    exact ⟨h, le_refl⟩
  · rename_i h
    exact ⟨le_refl, le_total.resolve_left h⟩

theorem max_eq_or : max p q = p ∨ max p q = q := by
  have hmax : max p q = if p ≤ q then q else p := rfl
  rw [hmax]
  split
  · exact .inr rfl
  · exact .inl rfl

/-- The furthest of some places lies nowhere before them, and is one of them. -/
theorem foldl_max (places : List Place) (p : Place) :
    (p ≤ places.foldl max p ∧ ∀ q ∈ places, q ≤ places.foldl max p) ∧
      (places.foldl max p = p ∨ places.foldl max p ∈ places) := by
  induction places generalizing p with
  | nil => simp [le_refl]
  | cons q places ih =>
    obtain ⟨⟨hle, hmem⟩, hone⟩ := ih (max p q)
    rw [List.foldl_cons]
    refine ⟨⟨le_trans le_max.1 hle, fun r hr => ?_⟩, ?_⟩
    · rcases List.mem_cons.mp hr with rfl | hr
      · exact le_trans le_max.2 hle
      · exact hmem r hr
    · rcases hone with hone | hone
      · rw [hone, List.mem_cons]
        exact max_eq_or.imp id .inl
      · exact .inr (List.mem_cons_of_mem q hone)

end Place

/-! ## Failures -/

variable {failures : List Failure} {place : Place} {construct : Construct}

theorem le_furthest {f : Failure} (hf : f ∈ failures) :
    f.place ≤ furthest failures :=
  (Place.foldl_max _ _).1.2 _ (List.mem_map_of_mem hf)

/-- Something has failed at the furthest place. -/
theorem exists_furthest (h : failures ≠ []) :
    ∃ f ∈ failures, f.place = furthest failures := by
  rcases (Place.foldl_max (failures.map Failure.place) Place.first).2 with hfirst | hmem
  · obtain ⟨f, hf⟩ := List.exists_mem_of_ne_nil failures h
    have hle : f.place ≤ Place.first := hfirst ▸ le_furthest hf
    exact ⟨f, hf, (Place.le_antisymm hle Place.first_le).trans hfirst.symm⟩
  · exact List.mem_map.mp hmem

theorem mem_expectedAt_iff :
    construct ∈ expectedAt failures place ↔ ⟨place, construct⟩ ∈ failures := by
  rw [expectedAt, List.mem_filter, decide_eq_true_iff]
  exact and_iff_right construct.mem_all

end GraphHom
