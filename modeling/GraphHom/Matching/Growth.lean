import GraphHom.Graph.Basic
import GraphHom.LabelMap
import GraphHom.StateSpace.Explorer

/-!
# Growing matches edge by edge

A match can be grown from a single element. A partial match binds some labels of the pattern to
labels of the host; one step pairs an unmatched element of the pattern with an element of the host
and binds its source, its label and its target at once. Edges go first. Only when none is left are
nodes paired, and by then every node with an edge has been bound through it.

The first step pairs the first edge of the pattern, or its first node if it has no edge, with every
host element of the same kind. A pattern without elements has no match.
-/

namespace GraphHom

/-- A pattern element paired with a host element. -/
structure Pairing where
  /-- The element of the pattern. -/
  pattern : Triple
  /-- The element of the host. -/
  host : Triple
deriving DecidableEq

/-- A match of a pattern in a host as far as it has been grown. -/
structure PartialMatch where
  /-- The host. -/
  host : Graph
  /-- The labels of the pattern that are bound, with their images. -/
  binding : LabelMap
  /-- The labels of the host that are images, in ascending order. -/
  used : List Name
  /-- The elements of the pattern that are not matched yet, in the order of triples. -/
  unmatched : List Triple
  /-- Whether no two labels may have one image. -/
  injective : Bool
deriving DecidableEq

namespace PartialMatch

/-- The partial match in which nothing is bound. -/
def start (pattern host : Graph) (injective : Bool) : PartialMatch where
  host := host
  binding := LabelMap.empty
  used := []
  unmatched := sortBy id pattern.elements
  injective := injective

/-! ## Admissible pairings -/

/-- Whether the host label `image` may be given to a pattern label that is not bound yet. -/
def isFree (s : PartialMatch) (image : Name) : Bool := !s.injective || image ∉ s.used

/-- Whether the pattern label `x` has, or may still get, the image `image`. -/
def endFits (s : PartialMatch) (x image : Name) : Bool :=
  match s.binding.get? x with
  | some bound => bound = image
  | none => s.isFree image

/-- Whether both ends of `t` are still to be bound and are two different labels. -/
def hasTwoOpenEnds (s : PartialMatch) (t : Triple) : Bool :=
  t.source ≠ t.target && (s.binding.get? t.source).isNone && (s.binding.get? t.target).isNone

/-- Whether a pairing can be added: its elements are of one kind and still available, a loop goes to
a loop, the ends fit, and in an injective match two open ends do not go to one node. -/
def canApply (s : PartialMatch) (p : Pairing) : Bool :=
  p.pattern ∈ s.unmatched && s.host.contains p.host &&
  decide (p.pattern.IsNode ↔ p.host.IsNode) &&
  (s.binding.get? p.pattern.label).isNone && s.isFree p.host.label &&
  (p.pattern.source ≠ p.pattern.target || p.host.source = p.host.target) &&
  s.endFits p.pattern.source p.host.source && s.endFits p.pattern.target p.host.target &&
  !(s.injective && s.hasTwoOpenEnds p.pattern && decide (p.host.source = p.host.target))

/-! ## Steps -/

/-- Binds the pattern label `x` to the host label `image`. -/
def bind (s : PartialMatch) (x image : Name) : PartialMatch :=
  { s with binding := s.binding.insert x image, used := insertBy id image s.used }

/-- Binds all labels of a pairing and takes out what is matched by it. -/
def pair (s : PartialMatch) (p : Pairing) : PartialMatch :=
  let s := s.bind p.pattern.source p.host.source
  let s := s.bind p.pattern.label p.host.label
  let s := s.bind p.pattern.target p.host.target
  { s with unmatched := s.unmatched.filter fun t =>
      t ≠ p.pattern && !(decide t.IsNode && (s.binding.get? t.label).isSome) }

/-- Every pattern element paired with every free host element, the host element varying fastest. -/
def pairings (s : PartialMatch) (pattern host : List Triple) : List Pairing :=
  pattern.flatMap fun t => (host.filter (s.isFree ·.label)).map fun u => ⟨t, u⟩

/-- The pairings to be tried next: those of the unmatched edges, or of the unmatched nodes if no
edge is left. -/
def offered (s : PartialMatch) : List Pairing :=
  let edges := s.unmatched.filter Triple.IsEdge
  if edges.isEmpty then s.pairings (s.unmatched.filter Triple.IsNode) s.host.nodes
  else s.pairings edges s.host.edges

/-- Partial matches as a state space. What is unmatched and how labels are bound identifies a state;
the binding is its result. -/
def space : StateSpace PartialMatch Pairing (List Triple × LabelMap) LabelMap where
  canApply := canApply
  apply s p := ((s.pair p).offered, s.pair p)
  isDone s := s.unmatched.isEmpty
  key s := (s.unmatched, s.binding)
  result := binding

end PartialMatch

/-! ## Matches -/

/-- The pairings of the first step. -/
def seedPairings (pattern host : Graph) : List Pairing :=
  match pattern.edges.head?.or pattern.nodes.head? with
  | none => []
  | some t => (host.elements.filter fun u => u.IsNode ↔ t.IsNode).map fun u => ⟨t, u⟩

/-- The start of the growth. -/
def growthStart (pattern host : Graph) (injective : Bool) : Offer PartialMatch Pairing :=
  ⟨PartialMatch.start pattern host injective, seedPairings pattern host⟩

/-- Every step matches an element of the pattern, so that no path is longer than this. -/
def growthDepth (pattern : Graph) : Nat := pattern.elements.length + 1

/-- All matches of `pattern` in `host`, in the order in which they are grown; `remembers` says
whether equal partial matches are grown only once. -/
def growMatches (pattern host : Graph) (injective remembers : Bool) : List LabelMap :=
  if (seedPairings pattern host).isEmpty then []
  else
    let explored := (Explorer.new remembers).allResults PartialMatch.space (growthDepth pattern)
      (growthStart pattern host injective)
    explored.elim [] (·.1)

/-- The first match of `pattern` in `host` to be grown. -/
def growFirstMatch (pattern host : Graph) (injective remembers : Bool) : Option LabelMap :=
  if (seedPairings pattern host).isEmpty then none
  else
    let explored := (Explorer.new remembers).firstResult PartialMatch.space (growthDepth pattern)
      (growthStart pattern host injective)
    explored.elim none (·.1)

end GraphHom
