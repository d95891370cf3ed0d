import GraphHom.Matching.Formulation

/-!
# Naming matches

Every match that is found becomes a morphism with a name of its own: a stem followed by a running
number. A name that has been handed out is used up, also when the morphism turns out not to exist.
-/

namespace GraphHom

/-- The names that are still to be handed out: `stem` followed by `next`, `next + 1`, and so on. -/
structure NameSupply where
  /-- What every name begins with. -/
  stem : String
  /-- The number of the next name. -/
  next : Nat
deriving DecidableEq

namespace NameSupply

/-- A supply of which nothing has been used. -/
def new (stem : String) : NameSupply := ⟨stem, 0⟩

/-- The next name, and the supply without it. -/
def fresh (s : NameSupply) : Name × NameSupply :=
  (⟨s.stem ++ toString s.next⟩, ⟨s.stem, s.next + 1⟩)

/-- The morphism described by a list of pairs, under the next name. -/
def morphism (s : NameSupply) (domain codomain : Graph) (pairs : List (Name × Name)) :
    Except BuildError Morphism × NameSupply :=
  let (name, rest) := s.fresh
  (Morphism.ofPairs name domain codomain pairs, rest)

/-- The morphisms described by several lists of pairs, under successive names, up to the first
failure. -/
def morphisms (s : NameSupply) (domain codomain : Graph) :
    List (List (Name × Name)) → Except BuildError (List Morphism) × NameSupply
  | [] => (.ok [], s)
  | pairs :: more =>
    match s.morphism domain codomain pairs with
    | (.error e, s) => (.error e, s)
    | (.ok m, s) =>
      let (result, s) := morphisms s domain codomain more
      (result.map (m :: ·), s)

end NameSupply

/-- The labels that an assignment relates. -/
def MatchProblem.labelPairs (assignment : Assignment MatchVar Triple) : List (Name × Name) :=
  assignment.map fun (x, t) => (x.label, t.label)

/-- The morphism that an assignment describes, under the next name of a supply. -/
def reconstruct (assignment : Assignment MatchVar Triple) (domain codomain : Graph)
    (names : NameSupply) : Except BuildError Morphism × NameSupply :=
  names.morphism domain codomain (MatchProblem.labelPairs assignment)

end GraphHom
