/-!
# Names

Nodes, edges, graphs and morphisms draw their names from one space of texts. Any text is a name, the
empty one included, and names are ordered by code points, shorter before longer where one begins the
other.

`Name.pair` makes one name of two. The separators of the pair are escaped inside its components, so
that different pairs have different names.
-/

namespace GraphHom

/-- A name: any text. -/
structure Name where
  /-- The text of the name. -/
  text : String
deriving DecidableEq, Hashable

namespace Name

instance : ToString Name := ⟨text⟩

/-! ## Order -/

/-- Names compare as their texts do, code point by code point. -/
instance : LT Name := ⟨fun a b => a.text < b.text⟩

instance : DecidableLT Name := fun a b => inferInstanceAs (Decidable (a.text < b.text))

theorem lt_iff {a b : Name} : a < b ↔ a.text < b.text := Iff.rfl

instance : @Std.Irrefl Name (· < ·) := ⟨fun a => String.lt_irrefl a.text⟩

instance : @Trans Name Name Name (· < ·) (· < ·) (· < ·) := ⟨fun h₁ h₂ => String.lt_trans h₁ h₂⟩

instance : @Std.Trichotomous Name (· < ·) where
  trichotomous a b h₁ h₂ := by
    obtain ⟨s⟩ := a
    obtain ⟨t⟩ := b
    exact congrArg mk (String.le_antisymm (String.not_lt.mp h₂) (String.not_lt.mp h₁))

/-! ## Pairs -/

/-- The characters that delimit the parts of a pair, and the mark that escapes them. -/
def isDelimiter (c : Char) : Bool := c = '\\' || c = ',' || c = '(' || c = ')'

/-- The characters of a component of a pair: every delimiter is preceded by a backslash. -/
def escape (cs : List Char) : List Char :=
  cs.flatMap fun c => if isDelimiter c then ['\\', c] else [c]

/-- The characters of the name of a pair: the two escaped components between parentheses. -/
def pairChars (first second : List Char) : List Char :=
  '(' :: (escape first ++ ',' :: (escape second ++ [')']))

/-- The name of a pair of names. -/
def pair (first second : Name) : Name :=
  ⟨String.ofList (pairChars first.text.toList second.text.toList)⟩

end Name

end GraphHom
