import GraphHom.StateSpace.Basic

/-!
# State spaces given by a table

A finite state space can be written down as a table that lists, for every state, the choices it
offers, where they lead, and its result if it is done. A state that the table does not list offers
nothing and is not done.
-/

namespace GraphHom

/-- What a table says about one state. -/
structure TableRow where
  /-- The choices offered on reaching the state. -/
  choices : List String
  /-- The state each admissible choice leads to. -/
  next : List (String × String)
  /-- The result, if the state is done. -/
  result : Option String
  /-- The key, if it differs from the state itself. -/
  key : Option String

/-- A table of states. -/
structure Table where
  /-- The rows, by state. -/
  rows : List (String × TableRow)

namespace Table

/-- The row of a state. -/
def row (t : Table) (state : String) : TableRow := (t.rows.lookup state).getD ⟨[], [], none, none⟩

/-- The state space that a table describes. -/
def space (t : Table) : StateSpace String String String String where
  canApply state choice := ((t.row state).next.lookup choice).isSome
  apply state choice :=
    let next := ((t.row state).next.lookup choice).getD state
    ((t.row next).choices, next)
  isDone state := (t.row state).result.isSome
  key state := (t.row state).key.getD state
  result state := (t.row state).result.getD ""

/-- A state with the choices its row offers. -/
def offer (t : Table) (state : String) : Offer String String := ⟨state, (t.row state).choices⟩

/-- A depth that no path through the table exceeds unless it runs in a circle: every listed state
once, the start with choices of its own once more, and one state that is not listed. -/
def depth (t : Table) : Nat := t.rows.length + 3

end Table

end GraphHom
