import GraphHom.Ascending
import GraphHom.Name

/-!
# Label maps

A finite map from labels to labels, kept as its pairs in ascending order of the first label. Two
label maps with the same look-ups are equal (`LabelMap.ext_get?`), and the look-ups of `empty` and
`insert` are `get?_empty` and `get?_insert`.

`LabelMap.ofPairs` reads a list of pairs as a map. The list may repeat a pair; it may not give one
label two images.
-/

namespace GraphHom

/-- A finite map from labels to labels. -/
structure LabelMap where
  /-- Every mapped label with its image. -/
  pairs : List (Name × Name)
  /-- The pairs stand in ascending order of the mapped label. -/
  ascending : Ascending Prod.fst pairs
deriving DecidableEq

namespace LabelMap

instance : Hashable LabelMap := ⟨fun m => hash m.pairs⟩

/-- The map without pairs. -/
def empty : LabelMap := ⟨[], List.Pairwise.nil⟩

/-- The image of `x`, if `x` is mapped. -/
def get? (m : LabelMap) (x : Name) : Option Name := (m.pairs.find? (·.1 = x)).map (·.2)

/-- Maps `x` to `y`, whatever its image was before. -/
def insert (m : LabelMap) (x y : Name) : LabelMap :=
  ⟨insertBy Prod.fst (x, y) m.pairs, m.ascending.insertBy⟩

/-- The mapped labels in ascending order. -/
def keys (m : LabelMap) : List Name := m.pairs.map (·.1)

/-! ## Look-up -/

theorem get?_eq_some_iff {m : LabelMap} {x y : Name} : m.get? x = some y ↔ (x, y) ∈ m.pairs :=
  m.ascending.lookUp_eq_some_iff

theorem ext_get? {m m' : LabelMap} (h : ∀ x, m.get? x = m'.get? x) : m = m' := by
  have hpairs : m.pairs = m'.pairs := by
    refine m.ascending.ext m'.ascending fun p => ?_
    rw [← get?_eq_some_iff (m := m), ← get?_eq_some_iff (m := m'), h]
  cases m
  cases m'
  cases hpairs
  rfl

@[simp] theorem get?_empty {x : Name} : empty.get? x = none := rfl

theorem get?_insert {m : LabelMap} {x y z : Name} :
    (m.insert x y).get? z = if z = x then some y else m.get? z :=
  m.ascending.lookUp_insertBy

theorem mem_keys_iff {m : LabelMap} {x : Name} : x ∈ m.keys ↔ ∃ y, m.get? x = some y := by
  simp [keys, get?_eq_some_iff]

/-! ## From pairs -/

/-- Adds one pair of a list; the error is the label when it already has another image. -/
def addPair (m : LabelMap) (pair : Name × Name) : Except Name LabelMap :=
  match m.get? pair.1 with
  | none => .ok (m.insert pair.1 pair.2)
  | some image => if image = pair.2 then .ok m else .error pair.1

/-- The map a list of pairs describes; the error is the first label to get a second image. -/
def ofPairs (pairs : List (Name × Name)) : Except Name LabelMap := pairs.foldlM addPair empty

end LabelMap

end GraphHom
