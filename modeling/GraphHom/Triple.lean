import GraphHom.Name

/-!
# Triples

Nodes and edges have one representation, a source, a label and a target. A node is its own source
and target; an edge has a label that differs from both of its ends. A triple of which just one end
equals the label is neither.
-/

namespace GraphHom

/-- A graph element: a label between a source and a target. -/
structure Triple where
  /-- Where an edge starts. -/
  source : Name
  /-- The name of the element itself. -/
  label : Name
  /-- Where an edge ends. -/
  target : Name
deriving DecidableEq, Hashable

namespace Triple

/-- The node called `label`. -/
def node (label : Name) : Triple := ⟨label, label, label⟩

/-- A node is its own source and target. -/
def IsNode (t : Triple) : Prop := t.source = t.label ∧ t.target = t.label

/-- An edge differs from both of its ends. -/
def IsEdge (t : Triple) : Prop := t.source ≠ t.label ∧ t.target ≠ t.label

instance : DecidablePred IsNode := fun _ => inferInstanceAs (Decidable (_ ∧ _))

instance : DecidablePred IsEdge := fun _ => inferInstanceAs (Decidable (_ ∧ _))

theorem isNode_iff {t : Triple} : t.IsNode ↔ t = node t.label := by
  obtain ⟨s, l, u⟩ := t
  simp [IsNode, node]

theorem isNode_node {label : Name} : (node label).IsNode := ⟨rfl, rfl⟩

theorem IsEdge.not_isNode {t : Triple} (h : t.IsEdge) : ¬t.IsNode := fun hn => h.1 hn.1

/-! ## Text -/

/-- A node is written as its label, any other triple as `label: source -> target`. -/
def text (t : Triple) : String :=
  if t.IsNode then t.label.text
  else t.label.text ++ ": " ++ t.source.text ++ " -> " ++ t.target.text

/-! ## Order -/

/-- Triples compare by source, then by label, then by target. -/
instance : LT Triple where
  lt t u := t.source < u.source ∨
    (t.source = u.source ∧ (t.label < u.label ∨ (t.label = u.label ∧ t.target < u.target)))

instance : DecidableLT Triple := fun _ _ => inferInstanceAs (Decidable (_ ∨ _))

theorem lt_iff {t u : Triple} : t < u ↔ t.source < u.source ∨
    (t.source = u.source ∧ (t.label < u.label ∨ (t.label = u.label ∧ t.target < u.target))) :=
  Iff.rfl

instance : @Std.Irrefl Triple (· < ·) where
  irrefl t h := by
    rcases lt_iff.mp h with h | ⟨_, h | ⟨_, h⟩⟩ <;> exact Std.lt_irrefl h

instance : @Trans Triple Triple Triple (· < ·) (· < ·) (· < ·) where
  trans {t u v} h₁ h₂ := by
    rcases lt_iff.mp h₁ with h₁ | ⟨e₁, h₁⟩ <;> rcases lt_iff.mp h₂ with h₂ | ⟨e₂, h₂⟩
    · exact .inl (Std.lt_trans h₁ h₂)
    · exact .inl (e₂ ▸ h₁)
    · exact .inl (e₁ ▸ h₂)
    · refine .inr ⟨e₁.trans e₂, ?_⟩
      rcases h₁ with h₁ | ⟨f₁, h₁⟩ <;> rcases h₂ with h₂ | ⟨f₂, h₂⟩
      · exact .inl (Std.lt_trans h₁ h₂)
      · exact .inl (f₂ ▸ h₁)
      · exact .inl (f₁ ▸ h₂)
      · exact .inr ⟨f₁.trans f₂, Std.lt_trans h₁ h₂⟩

instance : @Std.Trichotomous Triple (· < ·) where
  trichotomous t u h₁ h₂ := by
    have tri : ∀ {a b : Name}, ¬a < b → ¬b < a → a = b :=
      Std.Trichotomous.trichotomous (r := (· < ·)) _ _
    have n₁ := fun h => h₁ (lt_iff.mpr h)
    have n₂ := fun h => h₂ (lt_iff.mpr h)
    have es := tri (fun h => n₁ (.inl h)) (fun h => n₂ (.inl h))
    have el := tri (fun h => n₁ (.inr ⟨es, .inl h⟩)) (fun h => n₂ (.inr ⟨es.symm, .inl h⟩))
    have et := tri (fun h => n₁ (.inr ⟨es, .inr ⟨el, h⟩⟩))
      (fun h => n₂ (.inr ⟨es.symm, .inr ⟨el.symm, h⟩⟩))
    obtain ⟨_, _, _⟩ := t
    obtain ⟨_, _, _⟩ := u
    cases es
    cases el
    cases et
    rfl

/-- Whether `t` comes before `u`, is `u`, or comes after it. -/
def cmp (t u : Triple) : Ordering :=
  if t < u then .lt else if t = u then .eq else .gt

end Triple

end GraphHom
