import GraphHom.Name
import Mathlib.Logic.Function.Basic

/-!
# Names of pairs

Different pairs of names have different names (`Name.pair_inj`): an escaped component cannot run into
the delimiter behind it, so the first component ends where it was made to end
(`Name.escape_append_inj`).
-/

namespace GraphHom

namespace Name

theorem escape_cons_of_isDelimiter {c : Char} {cs : List Char} (h : isDelimiter c = true) :
    escape (c :: cs) = '\\' :: c :: escape cs := by
  rw [escape, List.flatMap_cons, if_pos h]
  rfl

theorem escape_cons_of_not_isDelimiter {c : Char} {cs : List Char} (h : ¬isDelimiter c = true) :
    escape (c :: cs) = c :: escape cs := by
  rw [escape, List.flatMap_cons, if_neg h]
  rfl

/-- What an escaped text that is not empty begins with is no bare delimiter. -/
theorem ne_escape_cons {d c : Char} {cs rest rest' : List Char} (hd : isDelimiter d = true)
    (hmark : d ≠ '\\') : d :: rest ≠ escape (c :: cs) ++ rest' := by
  intro h
  by_cases hc : isDelimiter c = true
  · rw [escape_cons_of_isDelimiter hc] at h
    exact hmark (List.cons.inj h).1
  · rw [escape_cons_of_not_isDelimiter hc] at h
    rw [(List.cons.inj h).1] at hd
    exact hc hd

/-- An escaped text ends at the first bare delimiter. -/
theorem escape_append_inj {d : Char} {cs cs' rest rest' : List Char} (hd : isDelimiter d = true)
    (hmark : d ≠ '\\') (h : escape cs ++ d :: rest = escape cs' ++ d :: rest') :
    cs = cs' ∧ rest = rest' := by
  induction cs generalizing cs' with
  | nil =>
    cases cs' with
    | nil => exact ⟨rfl, (List.cons.inj h).2⟩
    | cons c' cs' => exact absurd h (ne_escape_cons hd hmark)
  | cons c cs ih =>
    cases cs' with
    | nil => exact absurd h.symm (ne_escape_cons hd hmark)
    | cons c' cs' =>
      by_cases hc : isDelimiter c = true
      · rw [escape_cons_of_isDelimiter hc] at h
        by_cases hc' : isDelimiter c' = true
        · rw [escape_cons_of_isDelimiter hc'] at h
          obtain ⟨hhead, htail⟩ := List.cons.inj (List.cons.inj h).2
          obtain ⟨rfl, hrest⟩ := ih htail
          exact ⟨by rw [hhead], hrest⟩
        · -- a bare character is not the mark
          rw [escape_cons_of_not_isDelimiter hc'] at h
          rw [← (List.cons.inj h).1] at hc'
          exact absurd rfl hc'
      · rw [escape_cons_of_not_isDelimiter hc] at h
        by_cases hc' : isDelimiter c' = true
        · rw [escape_cons_of_isDelimiter hc'] at h
          rw [(List.cons.inj h).1] at hc
          exact absurd rfl hc
        · rw [escape_cons_of_not_isDelimiter hc'] at h
          obtain ⟨hhead, htail⟩ := List.cons.inj h
          obtain ⟨rfl, hrest⟩ := ih htail
          exact ⟨by rw [hhead], hrest⟩

/-- The components of a pair can be read off its characters: the first bare comma separates them. -/
theorem pairChars_inj {first first' second second' : List Char} :
    pairChars first second = pairChars first' second' ↔ first = first' ∧ second = second' := by
  constructor
  · intro h
    have hbody : escape first ++ ',' :: (escape second ++ [')']) =
        escape first' ++ ',' :: (escape second' ++ [')']) := (List.cons.inj h).2
    obtain ⟨hfirst, hrest⟩ := escape_append_inj (by decide) (by decide) hbody
    obtain ⟨hsecond, -⟩ := escape_append_inj (by decide) (by decide) hrest
    exact ⟨hfirst, hsecond⟩
  · rintro ⟨rfl, rfl⟩
    rfl

theorem eq_of_toList {a b : Name} (h : a.text.toList = b.text.toList) : a = b := by
  obtain ⟨a⟩ := a
  obtain ⟨b⟩ := b
  exact congrArg mk (String.toList_inj.mp h)

/-- **Different pairs of names have different names.** -/
theorem pair_inj {a a' b b' : Name} : pair a b = pair a' b' ↔ a = a' ∧ b = b' := by
  constructor
  · intro h
    obtain ⟨hfirst, hsecond⟩ := pairChars_inj.mp (String.ofList_injective (congrArg text h))
    exact ⟨eq_of_toList hfirst, eq_of_toList hsecond⟩
  · rintro ⟨rfl, rfl⟩
    rfl

/-- **Names are paired without loss**, whatever characters they are made of. -/
theorem pair_injective2 : Function.Injective2 pair := by
  intro a a' b b' h
  have hchars : pairChars a.text.toList b.text.toList = pairChars a'.text.toList b'.text.toList :=
    String.ofList_injective (congrArg text h)
  obtain ⟨hfirst, hsecond⟩ := pairChars_inj.mp hchars
  exact ⟨eq_of_toList hfirst, eq_of_toList hsecond⟩

/-- The name of a backslash and a comma, paired with the empty name. -/
theorem pair_injective2_delimiters :
    pair ⟨"\\,"⟩ ⟨""⟩ = ⟨"(\\\\\\,,)"⟩ ∧
    ∀ a b, pair a b = ⟨"(\\\\\\,,)"⟩ → a = ⟨"\\,"⟩ ∧ b = ⟨""⟩ := by
  have htext : pair ⟨"\\,"⟩ ⟨""⟩ = ⟨"(\\\\\\,,)"⟩ := by decide
  exact ⟨htext, fun a b h => pair_injective2 (h.trans htext.symm)⟩

end Name

end GraphHom
