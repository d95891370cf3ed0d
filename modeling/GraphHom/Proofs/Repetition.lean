import GraphHom.Repetition

/-!
# Lists without repetitions

What `distinct` keeps (`mem_distinct_iff`, `nodup_distinct`), and how it goes along with `++`: appending
what is already there changes nothing (`distinct_append_of_subset`), and two lists with the same
distinct elements may be exchanged in front of a third (`distinct_append_congr`). It may be done before or
after other elements are left out (`filter_distinct`).
-/

namespace GraphHom

variable {α : Type} [BEq α] [Hashable α] [LawfulBEq α] {a : α} {l l' r : List α}

theorem mem_distinct_iff : a ∈ distinct l ↔ a ∈ l := by
  rw [distinct_eq_eraseDups, List.mem_eraseDups]

omit [Hashable α] in
theorem nodup_eraseDups : l.eraseDups.Nodup := by
  -- removing the repetitions of one element shortens the rest, so the induction is on the length
  induction hn : l.length using Nat.strongRecOn generalizing l with
  | _ n ih =>
    cases l with
    | nil => simp
    | cons b l =>
      have hlen : (l.filter fun c => !c == b).length < n := by
        have := List.length_filter_le (fun c => !c == b) l
        simp only [List.length_cons] at hn
        omega
      rw [List.eraseDups_cons, List.nodup_cons]
      exact ⟨by simp [List.mem_eraseDups], ih _ hlen rfl⟩

theorem nodup_distinct : (distinct l).Nodup := by
  rw [distinct_eq_eraseDups]
  exact nodup_eraseDups

omit [LawfulBEq α] in
/-- The first element is kept where it is. -/
theorem head?_distinct : (distinct l).head? = l.head? := by
  cases l with
  | nil => rfl
  | cons b l => simp [distinct, distinctAfter]

omit [LawfulBEq α] in
theorem distinct_eq_nil_iff : distinct l = [] ↔ l = [] := by
  rw [← List.head?_eq_none_iff, head?_distinct, List.head?_eq_none_iff]

theorem distinct_append : distinct (l ++ r) = distinct l ++ distinct (r.removeAll l) := by
  simp only [distinct_eq_eraseDups, List.eraseDups_append]

/-- Appending elements that are already there changes nothing. -/
theorem distinct_append_of_subset (h : r ⊆ l) : distinct (l ++ r) = distinct l := by
  have hnone : r.removeAll l = [] := by
    refine List.filter_eq_nil_iff.mpr fun a ha => ?_
    simp [h ha]
  rw [distinct_append, hnone]
  exact List.append_nil _

/-- Of what has been seen, only what is kept matters. -/
theorem filter_distinctAfter {keep : α → Bool} {seen seen' : Std.HashSet α}
    (hseen : ∀ b, keep b = true → seen.contains b = seen'.contains b) :
    (distinctAfter seen l).filter keep = distinctAfter seen' (l.filter keep) := by
  induction l generalizing seen seen' with
  | nil => rfl
  | cons b l ih =>
    cases hb : keep b with
    | true =>
      rw [List.filter_cons_of_pos hb]
      simp only [distinctAfter]
      rw [hseen b hb]
      split
      · exact ih hseen
      · rw [List.filter_cons_of_pos hb]
        refine congrArg (b :: ·) (ih fun c hc => ?_)
        rw [Std.HashSet.contains_insert, Std.HashSet.contains_insert, hseen c hc]
    | false =>
      have hb : ¬keep b = true := Bool.eq_false_iff.mp hb
      rw [List.filter_cons_of_neg hb]
      simp only [distinctAfter]
      split
      · exact ih hseen
      · rw [List.filter_cons_of_neg hb]
        refine ih fun c hc => ?_
        have hne : (b == c) = false := beq_eq_false_iff_ne.mpr fun heq => hb (heq ▸ hc)
        rw [Std.HashSet.contains_insert, hne, Bool.false_or, hseen c hc]

/-- Removing repetitions leaves the others in their order. -/
theorem filter_distinct {keep : α → Bool} : (distinct l).filter keep = distinct (l.filter keep) :=
  filter_distinctAfter fun _ _ => rfl

/-- Lists with the same distinct elements may be exchanged in front of another list. -/
theorem distinct_append_congr (h : distinct l = distinct l') :
    distinct (l ++ r) = distinct (l' ++ r) := by
  have hmem : ∀ a, a ∈ l ↔ a ∈ l' := fun a => by rw [← mem_distinct_iff, h, mem_distinct_iff]
  have hrest : r.removeAll l = r.removeAll l' := by
    refine List.filter_congr fun a _ => ?_
    simp [hmem]
  rw [distinct_append, distinct_append, h, hrest]

end GraphHom
