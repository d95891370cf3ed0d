import GraphHom.Morphism.Basic
import GraphHom.Repetition

/-!
# Pullbacks

For two morphisms `A -> C` and `B -> C` the pullback object holds the pairs of elements of one kind
that have one image in `C`. It projects to both domains. A pair of elements is named by the pairs of
their sources, labels and targets, which keeps it a node or an edge as its components are.
-/

namespace GraphHom

/-- The pair of two elements, made of the pairs of their sources, labels and targets. -/
def Triple.pair (a b : Triple) : Triple :=
  ⟨Name.pair a.source b.source, Name.pair a.label b.label, Name.pair a.target b.target⟩

/-- Two morphisms out of one graph. -/
structure Span where
  /-- The projection to the domain of the first morphism. -/
  first : Morphism
  /-- The projection to the domain of the second morphism. -/
  second : Morphism
deriving DecidableEq

namespace Morphism

/-- The pairs of elements of one kind with one image, the first component varying slowest. -/
def matchingPairs (left right : Morphism) : List (Triple × Triple) :=
  left.domain.elements.flatMap fun a =>
    (right.domain.elements.filter fun b =>
      (a.IsNode ↔ b.IsNode) ∧ left.apply a.label = right.apply b.label).map fun b => (a, b)

/-- The pullback of two morphisms with one codomain. Pairs of elements with one label are refused. -/
def pullback (left right : Morphism) : Except BuildError Span :=
  if left.codomain ≠ right.codomain then .error (.codomainMismatch left.name right.name)
  else
    let pairs := left.matchingPairs right
    let name := ⟨left.domain.name.text ++ "*" ++ right.domain.name.text⟩
    match firstRepeat? (fun p => (p.1.pair p.2).label) pairs with
    | some p => .error (.duplicateLabel name (p.1.pair p.2).label)
    | none => do
      let stem := left.name.text ++ "*" ++ right.name.text
      let object ← Graph.ofTriples name (pairs.map fun p => p.1.pair p.2)
      let first ← ofPairs ⟨stem ++ "_1"⟩ object left.domain
        (pairs.map fun p => ((p.1.pair p.2).label, p.1.label))
      let second ← ofPairs ⟨stem ++ "_2"⟩ object right.domain
        (pairs.map fun p => ((p.1.pair p.2).label, p.2.label))
      return ⟨first, second⟩

end Morphism

end GraphHom
