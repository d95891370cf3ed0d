import Std.Data.HashSet

/-!
# Repetitions

`firstRepeat?` finds the first element of a list that repeats the key of an earlier one; there is
none exactly when the keys are pairwise different (`firstRepeat?_eq_none_iff`), and otherwise the keys
before it are (`firstRepeat?_eq_some_iff`).

`distinct` keeps each element of a list where it first occurs. It looks elements up in a hash set,
and does what the plain quadratic removal of repetitions does (`distinct_eq_eraseDups`).
-/

namespace GraphHom

variable {α κ : Type}

/-! ## The first repetition -/

section FirstRepeat

variable [DecidableEq κ]

/-- The first element of `l` whose key is in `seen` or is the key of an earlier element. -/
def firstRepeatAfter? (key : α → κ) (seen : List κ) : List α → Option α
  | [] => none
  | a :: l => if key a ∈ seen then some a else firstRepeatAfter? key (key a :: seen) l

/-- The first element of `l` whose key is the key of an earlier element. -/
def firstRepeat? (key : α → κ) (l : List α) : Option α := firstRepeatAfter? key [] l

theorem firstRepeatAfter?_eq_none_iff {key : α → κ} {seen : List κ} {l : List α} :
    firstRepeatAfter? key seen l = none ↔
      (∀ a ∈ l, key a ∉ seen) ∧ l.Pairwise fun a b => key a ≠ key b := by
  induction l generalizing seen with
  | nil => simp [firstRepeatAfter?]
  | cons a l ih =>
    simp only [firstRepeatAfter?, List.pairwise_cons, List.forall_mem_cons]
    split
    · rename_i h
      simp [h]
    · rename_i h
      rw [ih]
      simp only [List.mem_cons, not_or, h, not_false_eq_true, true_and]
      constructor
      · rintro ⟨h₁, h₂⟩
        exact ⟨fun b hb => (h₁ b hb).2, fun b hb hab => (h₁ b hb).1 hab.symm, h₂⟩
      · rintro ⟨h₁, h₂, h₃⟩
        exact ⟨fun b hb => ⟨fun hba => h₂ b hb hba.symm, h₁ b hb⟩, h₃⟩

theorem mem_of_firstRepeatAfter? {key : α → κ} {seen : List κ} {l : List α} {a : α}
    (h : firstRepeatAfter? key seen l = some a) : a ∈ l := by
  induction l generalizing seen with
  | nil => cases h
  | cons b l ih =>
    rw [firstRepeatAfter?] at h
    split at h
    · cases h
      exact List.mem_cons_self
    · exact List.mem_cons_of_mem b (ih h)

theorem firstRepeat?_eq_none_iff {key : α → κ} {l : List α} :
    firstRepeat? key l = none ↔ l.Pairwise fun a b => key a ≠ key b := by
  simp [firstRepeat?, firstRepeatAfter?_eq_none_iff]

theorem firstRepeatAfter?_eq_some_iff {key : α → κ} {seen : List κ} {l : List α} {a : α} :
    firstRepeatAfter? key seen l = some a ↔ ∃ before after, l = before ++ a :: after ∧
      (∀ b ∈ before, key b ∉ seen) ∧ (before.Pairwise fun b c => key b ≠ key c) ∧
      (key a ∈ seen ∨ ∃ b ∈ before, key b = key a) := by
  induction l generalizing seen with
  | nil => simp [firstRepeatAfter?]
  | cons b l ih =>
    rw [firstRepeatAfter?]
    split
    · rename_i hb
      constructor
      · intro h
        cases h
        exact ⟨[], l, rfl, by simp, .nil, .inl hb⟩
      · rintro ⟨before, after, heq, hnew, -, -⟩
        -- nothing with a key that is not in `seen` can come before `b`
        cases before with
        | nil =>
          cases heq
          rfl
        | cons c before =>
          cases heq
          exact absurd hb (hnew b List.mem_cons_self)
    · rename_i hb
      rw [ih]
      constructor
      · rintro ⟨before, after, rfl, hnew, hne, hrepeat⟩
        have hnew' : ∀ c ∈ before, key c ≠ key b ∧ key c ∉ seen := by simpa using hnew
        refine ⟨b :: before, after, rfl, ?_, ?_, ?_⟩
        · exact List.forall_mem_cons.mpr ⟨hb, fun c hc => (hnew' c hc).2⟩
        · exact List.pairwise_cons.mpr ⟨fun c hc heq => (hnew' c hc).1 heq.symm, hne⟩
        · rcases hrepeat with hseen | ⟨c, hc, heq⟩
          · rcases List.mem_cons.mp hseen with heq | hseen
            · exact .inr ⟨b, List.mem_cons_self, heq.symm⟩
            · exact .inl hseen
          · exact .inr ⟨c, List.mem_cons_of_mem b hc, heq⟩
      · rintro ⟨before, after, heq, hnew, hne, hrepeat⟩
        cases before with
        | nil =>
          cases heq
          rcases hrepeat with hseen | ⟨c, hc, -⟩
          · exact absurd hseen hb
          · cases hc
        | cons c before =>
          cases heq
          obtain ⟨hhead, hne⟩ := List.pairwise_cons.mp hne
          refine ⟨before, after, rfl, fun c hc => ?_, hne, ?_⟩
          · rw [List.mem_cons, not_or]
            exact ⟨fun heq => hhead c hc heq.symm, hnew c (List.mem_cons_of_mem b hc)⟩
          · rcases hrepeat with hseen | ⟨c, hc, heq⟩
            · exact .inl (List.mem_cons_of_mem (key b) hseen)
            · rcases List.mem_cons.mp hc with rfl | hc
              · exact .inl (heq ▸ List.mem_cons_self)
              · exact .inr ⟨c, hc, heq⟩

/-- The first element that repeats a key comes after elements with different keys. -/
theorem firstRepeat?_eq_some_iff {key : α → κ} {l : List α} {a : α} :
    firstRepeat? key l = some a ↔ ∃ before after, l = before ++ a :: after ∧
      (before.Pairwise fun b c => key b ≠ key c) ∧ ∃ b ∈ before, key b = key a := by
  simp [firstRepeat?, firstRepeatAfter?_eq_some_iff]

end FirstRepeat

/-! ## Removing repetitions -/

section Distinct

variable [BEq α] [Hashable α]

/-- The elements of a list that are not in `seen`, each where it first occurs. -/
def distinctAfter (seen : Std.HashSet α) : List α → List α
  | [] => []
  | a :: l => if seen.contains a then distinctAfter seen l else a :: distinctAfter (seen.insert a) l

/-- The elements of a list, each where it first occurs. -/
def distinct (l : List α) : List α := distinctAfter ∅ l

variable [LawfulBEq α]

theorem distinctAfter_eq_eraseDups {seen : Std.HashSet α} {l : List α} :
    distinctAfter seen l = (l.filter fun a => !seen.contains a).eraseDups := by
  induction l generalizing seen with
  | nil => rfl
  | cons a l ih =>
    simp only [distinctAfter]
    split
    · rename_i h
      rw [ih, List.filter_cons_of_neg (by simp [h])]
    · rename_i h
      rw [ih, List.filter_cons_of_pos (by simp [h]), List.eraseDups_cons, List.filter_filter]
      congr 3
      funext b
      simp [Std.HashSet.contains_insert, Bool.beq_comm]

theorem distinct_eq_eraseDups {l : List α} : distinct l = l.eraseDups := by
  rw [distinct, distinctAfter_eq_eraseDups, List.filter_eq_self.mpr (by simp)]

end Distinct

end GraphHom
