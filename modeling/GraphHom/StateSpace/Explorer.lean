import GraphHom.Repetition
import GraphHom.StateSpace.Basic

/-!
# Exploring state spaces

An explorer walks a state space depth first, taking choices in the order in which they are offered.
A state that is done yields its result and is not entered further. An explorer that remembers skips
every state whose key it has met before; its memory outlives a walk, so that a later walk skips what
an earlier one has seen.

A walk is given the depth to which it may go. One that would have to go deeper has no outcome; where
every path of the space is short enough, the limit makes no difference.
-/

namespace GraphHom

variable {σ χ κ ω : Type} [BEq κ] [Hashable κ]

/-- What an explorer knows from its walks so far. -/
structure Explorer (κ : Type) [BEq κ] [Hashable κ] where
  /-- Whether states with a key that has been met are skipped. -/
  remembers : Bool
  /-- The keys met so far, if they are remembered. -/
  met : Std.HashSet κ
  /-- The number of states entered so far. -/
  entered : Nat

namespace Explorer

/-- An explorer before its first walk. -/
def new (remembers : Bool) : Explorer κ := ⟨remembers, ∅, 0⟩

/-- Whether a state with this key is skipped. -/
def skips (e : Explorer κ) (key : κ) : Bool := e.remembers && e.met.contains key

/-- The explorer after entering a state with this key. -/
def enter (e : Explorer κ) (key : κ) : Explorer κ :=
  { e with met := if e.remembers then e.met.insert key else e.met, entered := e.entered + 1 }

end Explorer

/-- The state of a walk: the explorer, and the results found, latest first. -/
structure Walk (κ ω : Type) [BEq κ] [Hashable κ] where
  /-- The explorer that walks. -/
  explorer : Explorer κ
  /-- The results found so far, latest first. -/
  found : List ω

namespace Walk

/-- Whether nothing is left to do for a walk that ends with its first result. -/
def isOver (w : Walk κ ω) (firstOnly : Bool) : Bool := firstOnly && !w.found.isEmpty

/-- Goes through the states below `offer`, at most `depth` of them on one path. -/
def visit (space : StateSpace σ χ κ ω) (firstOnly : Bool) :
    (depth : Nat) → Walk κ ω → Offer σ χ → Option (Walk κ ω)
  | 0, w, _ => if w.isOver firstOnly then some w else none
  | depth + 1, w, offer =>
    let key := space.key offer.state
    if w.isOver firstOnly || w.explorer.skips key then some w
    else
      let explorer := w.explorer.enter key
      if space.isDone offer.state then some ⟨explorer, space.result offer.state :: w.found⟩
      else (space.successors offer).foldlM (visit space firstOnly depth) ⟨explorer, w.found⟩

end Walk

namespace Explorer

/-- The distinct results below `start` in the order of their discovery, and the explorer
afterwards. -/
def allResults [BEq ω] [Hashable ω] (e : Explorer κ) (space : StateSpace σ χ κ ω) (depth : Nat)
    (start : Offer σ χ) : Option (List ω × Explorer κ) :=
  (Walk.visit space false depth ⟨e, []⟩ start).map fun w =>
    (distinct w.found.reverse, w.explorer)

/-- The first result below `start`, and the explorer at the moment it is found. -/
def firstResult (e : Explorer κ) (space : StateSpace σ χ κ ω) (depth : Nat) (start : Offer σ χ) :
    Option (Option ω × Explorer κ) :=
  (Walk.visit space true depth ⟨e, []⟩ start).map fun w => (w.found.head?, w.explorer)

end Explorer

end GraphHom
