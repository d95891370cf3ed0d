/-!
# Lists in ascending order of a key

Finite sets and finite maps are kept as lists in strictly ascending order of a key, so that equal
contents are equal lists and every walk over them has one order. `insertBy` puts one element in its
place, taking the place of an element with the same key; `sortBy` brings any list into this form.

* `Ascending.insertBy`, `Ascending.sortBy` — both keep, or make, the list ascending;
* `mem_insertBy_iff`, `mem_sortBy_iff` — what is in the result, and `length_sortBy_le` — how much;
* `Ascending.eq_of_mem`, `Ascending.find?_eq_some_iff` — a key occurs once, and is found where it
  occurs;
* `Ascending.ext` — ascending lists with the same members are equal;
* `Ascending.lookUp_eq_some_iff`, `Ascending.lookUp_insertBy` — a list of pairs as a finite map.
-/

namespace GraphHom

variable {α κ : Type} [LT κ]

/-- The elements of `l` stand in strictly ascending order of `key`. -/
def Ascending (key : α → κ) (l : List α) : Prop := l.Pairwise fun a b => key a < key b

/-- Puts `a` in its place in an ascending list; an element with the key of `a` gives way to it. -/
def insertBy [DecidableLT κ] (key : α → κ) (a : α) : List α → List α
  | [] => [a]
  | b :: l =>
    if key a < key b then a :: b :: l
    else if key b < key a then b :: insertBy key a l
    else a :: l

/-- The elements of `l` in ascending order of `key`; of several with one key the first is kept. -/
def sortBy [DecidableLT κ] (key : α → κ) (l : List α) : List α := l.foldr (insertBy key) []

/-! ## Members -/

section Members

variable [DecidableLT κ] {key : α → κ} {a x : α} {l : List α}

theorem mem_insertBy_self : a ∈ insertBy key a l := by
  induction l with
  | nil => simp [insertBy]
  | cons b l ih =>
    simp only [insertBy]
    split
    · simp
    · split
      · exact List.mem_cons_of_mem _ ih
      · simp

theorem eq_or_mem_of_mem_insertBy (h : x ∈ insertBy key a l) : x = a ∨ x ∈ l := by
  induction l with
  | nil => simpa [insertBy] using h
  | cons b l ih =>
    simp only [insertBy] at h
    split at h
    · simpa using h
    · split at h
      · rcases List.mem_cons.mp h with h | h
        · exact .inr (h ▸ List.mem_cons_self)
        · exact (ih h).imp id (List.mem_cons_of_mem b)
      · rcases List.mem_cons.mp h with h | h
        · exact .inl h
        · exact .inr (List.mem_cons_of_mem b h)

theorem mem_of_mem_sortBy (h : x ∈ sortBy key l) : x ∈ l := by
  induction l with
  | nil => exact h
  | cons b l ih =>
    rcases eq_or_mem_of_mem_insertBy h with h | h
    · exact h ▸ List.mem_cons_self
    · exact List.mem_cons_of_mem b (ih h)

theorem length_insertBy_le : (insertBy key a l).length ≤ l.length + 1 := by
  induction l with
  | nil => simp [insertBy]
  | cons b l ih =>
    simp only [insertBy]
    split
    · simp
    · split
      · simpa using ih
      · simp

theorem length_sortBy_le : (sortBy key l).length ≤ l.length := by
  induction l with
  | nil => simp [sortBy]
  | cons b l ih =>
    have hle : (insertBy key b (sortBy key l)).length ≤ (sortBy key l).length + 1 :=
      length_insertBy_le
    show (insertBy key b (sortBy key l)).length ≤ l.length + 1
    omega

end Members

/-! ## Order -/

section Order

variable [@Trans κ κ κ (· < ·) (· < ·) (· < ·)]
variable {key : α → κ} {a b x : α} {l l' : List α}

section Sorting

variable [DecidableLT κ] [@Std.Trichotomous κ (· < ·)]

theorem Ascending.insertBy (h : Ascending key l) : Ascending key (insertBy key a l) := by
  induction l with
  | nil => exact List.pairwise_singleton _ _
  | cons b l ih =>
    obtain ⟨hb, hl⟩ := List.pairwise_cons.mp h
    simp only [GraphHom.insertBy]
    split
    · rename_i hab
      refine List.pairwise_cons.mpr ⟨fun c hc => ?_, h⟩
      rcases List.mem_cons.mp hc with rfl | hc
      · exact hab
      · exact Std.lt_trans hab (hb c hc)
    · split
      · rename_i hba
        refine List.pairwise_cons.mpr ⟨fun c hc => ?_, ih hl⟩
        rcases eq_or_mem_of_mem_insertBy hc with rfl | hc
        · exact hba
        · exact hb c hc
      · rename_i hab hba
        have heq : key a = key b := Std.Trichotomous.trichotomous _ _ hab hba
        exact List.pairwise_cons.mpr ⟨fun c hc => heq ▸ hb c hc, hl⟩

theorem Ascending.sortBy : Ascending key (sortBy key l) := by
  induction l with
  | nil => exact List.Pairwise.nil
  | cons b l ih => exact ih.insertBy

end Sorting

variable [@Std.Irrefl κ (· < ·)]

omit [@Trans κ κ κ (· < ·) (· < ·) (· < ·)] in
/-- A key occurs once in an ascending list. -/
theorem Ascending.eq_of_mem (h : Ascending key l) (ha : a ∈ l) (hb : b ∈ l)
    (hab : key a = key b) : a = b := by
  induction l with
  | nil => cases ha
  | cons c l ih =>
    obtain ⟨hc, hl⟩ := List.pairwise_cons.mp h
    rcases List.mem_cons.mp ha with h₁ | h₁ <;> rcases List.mem_cons.mp hb with h₂ | h₂
    · exact h₁.trans h₂.symm
    · exact absurd (hab ▸ h₁ ▸ hc b h₂) Std.lt_irrefl
    · exact absurd (hab ▸ h₂ ▸ hc a h₁) Std.lt_irrefl
    · exact ih hl h₁ h₂

omit [@Trans κ κ κ (· < ·) (· < ·) (· < ·)] in
/-- Looking a key up finds the element that has it. -/
theorem Ascending.find?_eq_some_iff [DecidableEq κ] (h : Ascending key l) {k : κ} :
    l.find? (key · = k) = some a ↔ a ∈ l ∧ key a = k := by
  constructor
  · intro hfind
    exact ⟨List.mem_of_find?_eq_some hfind, by simpa using List.find?_some hfind⟩
  · rintro ⟨ha, rfl⟩
    have hsome : (l.find? (key · = key a)).isSome := List.find?_isSome.mpr ⟨a, ha, by simp⟩
    obtain ⟨b, hb⟩ := Option.isSome_iff_exists.mp hsome
    have hkey : key b = key a := by simpa using List.find?_some hb
    rw [hb, h.eq_of_mem (List.mem_of_find?_eq_some hb) ha hkey]

/-- Ascending lists with the same members are equal. -/
theorem Ascending.ext (h : Ascending key l) (h' : Ascending key l')
    (hmem : ∀ x, x ∈ l ↔ x ∈ l') : l = l' := by
  induction l generalizing l' with
  | nil =>
    cases l' with
    | nil => rfl
    | cons b l' => exact absurd ((hmem b).mpr List.mem_cons_self) (by simp)
  | cons a l ih =>
    cases l' with
    | nil => exact absurd ((hmem a).mp List.mem_cons_self) (by simp)
    | cons b l' =>
      obtain ⟨ha, hl⟩ := List.pairwise_cons.mp h
      obtain ⟨hb, hl'⟩ := List.pairwise_cons.mp h'
      have hab : a = b := by
        rcases List.mem_cons.mp ((hmem a).mp List.mem_cons_self) with h₁ | h₁
        · exact h₁
        rcases List.mem_cons.mp ((hmem b).mpr List.mem_cons_self) with h₂ | h₂
        · exact h₂.symm
        exact absurd (Std.lt_trans (ha b h₂) (hb a h₁)) Std.lt_irrefl
      subst hab
      refine congrArg (a :: ·) (ih hl hl' fun x => ?_)
      constructor
      · intro hx
        rcases List.mem_cons.mp ((hmem x).mp (List.mem_cons_of_mem a hx)) with rfl | hx'
        · exact absurd (ha x hx) Std.lt_irrefl
        · exact hx'
      · intro hx
        rcases List.mem_cons.mp ((hmem x).mpr (List.mem_cons_of_mem a hx)) with rfl | hx'
        · exact absurd (hb x hx) Std.lt_irrefl
        · exact hx'

variable [DecidableLT κ] [@Std.Trichotomous κ (· < ·)]

/-- Inserting adds the element and drops at most the one whose key it has. -/
theorem mem_insertBy_iff (h : Ascending key l) :
    x ∈ insertBy key a l ↔ x = a ∨ (x ∈ l ∧ key x ≠ key a) := by
  constructor
  · intro hx
    rcases eq_or_mem_of_mem_insertBy hx with hxa | hxl
    · exact .inl hxa
    · by_cases hk : key x = key a
      · exact .inl (h.insertBy.eq_of_mem hx mem_insertBy_self hk)
      · exact .inr ⟨hxl, hk⟩
  · rintro (rfl | ⟨hx, hk⟩)
    · exact mem_insertBy_self
    · clear h
      induction l with
      | nil => cases hx
      | cons b l ih =>
        simp only [insertBy]
        split
        · exact List.mem_cons_of_mem a hx
        · split
          · rcases List.mem_cons.mp hx with rfl | hx
            · exact List.mem_cons_self
            · exact List.mem_cons_of_mem b (ih hx)
          · rename_i hab hba
            rcases List.mem_cons.mp hx with rfl | hx
            · exact absurd (Std.Trichotomous.trichotomous _ _ hba hab) hk
            · exact List.mem_cons_of_mem a hx

/-- Where no two elements share a key, sorting keeps every element. -/
theorem mem_sortBy_iff (hinj : ∀ a ∈ l, ∀ b ∈ l, key a = key b → a = b) :
    x ∈ sortBy key l ↔ x ∈ l := by
  refine ⟨mem_of_mem_sortBy, fun hx => ?_⟩
  induction l with
  | nil => cases hx
  | cons b l ih =>
    refine (mem_insertBy_iff Ascending.sortBy).mpr ?_
    by_cases hxb : x = b
    · exact .inl hxb
    · have hxl : x ∈ l := (List.mem_cons.mp hx).resolve_left hxb
      refine .inr ⟨ih (fun a ha c hc => hinj a (.tail b ha) c (.tail b hc)) hxl, fun hk => ?_⟩
      exact hxb (hinj x hx b List.mem_cons_self hk)

/-- Elements that are their own keys are all kept. -/
theorem mem_sortBy_id_iff {k : κ} {l : List κ} : k ∈ sortBy id l ↔ k ∈ l :=
  mem_sortBy_iff fun _ _ _ _ h => h

end Order

/-! ## Look-up in a list of pairs -/

section LookUp

variable [DecidableEq κ] [@Std.Irrefl κ (· < ·)] {l : List (κ × α)} {k x : κ} {a b : α}

/-- What is found under a key is what is paired with it. -/
theorem Ascending.lookUp_eq_some_iff (h : Ascending Prod.fst l) :
    (l.find? (·.1 = k)).map (·.2) = some a ↔ (k, a) ∈ l := by
  rw [Option.map_eq_some_iff]
  constructor
  · rintro ⟨p, hp, rfl⟩
    obtain ⟨hmem, rfl⟩ := h.find?_eq_some_iff.mp hp
    exact hmem
  · intro hmem
    exact ⟨(k, a), h.find?_eq_some_iff.mpr ⟨hmem, rfl⟩, rfl⟩

variable [DecidableLT κ] [@Trans κ κ κ (· < ·) (· < ·) (· < ·)] [@Std.Trichotomous κ (· < ·)]

/-- An inserted pair is found under its key, and nothing else is found elsewhere. -/
theorem Ascending.lookUp_insertBy (h : Ascending Prod.fst l) :
    ((GraphHom.insertBy Prod.fst (k, a) l).find? (·.1 = x)).map (·.2) =
      if x = k then some a else (l.find? (·.1 = x)).map (·.2) := by
  refine Option.ext fun b => ?_
  rw [h.insertBy.lookUp_eq_some_iff, mem_insertBy_iff h]
  split
  · rename_i heq
    simp [heq, eq_comm]
  · rename_i hne
    rw [h.lookUp_eq_some_iff]
    simp [hne]

end LookUp

end GraphHom
