import GraphHom.Document.Basic
import GraphHom.Document.Reader

/-!
# The grammar of documents

A document is a sequence of definitions:

    ( graph NAME [( nodes NAME* )] [( edges ( NAME NAME NAME )* )] )
    ( morphism NAME ( from NAME ) ( to NAME ) [( map ( NAME NAME )* )] )

A keyword is taken from the front of a word; what is left of the word, if anything, is the next
name. No keyword is reserved. `readDefinitions` reads a whole sequence of tokens; it answers the
definitions, or the failures met if the tokens are no document.
-/

namespace GraphHom

namespace Grammar

open Reader

/-! ## Parts of definitions -/

/-- A name. -/
def name : Reader Name := tracked .name word

/-- `( nodes NAME* )` -/
def nodes : Reader (List Name) := tracked .nodes do
  let _ ← token .opening
  keyword "nodes".toList
  let names ← many name
  let _ ← token .closing
  return names

/-- `( NAME NAME NAME )` -/
def edge : Reader Triple := tracked .edge do
  let _ ← token .opening
  let source ← name
  let label ← name
  let target ← name
  let _ ← token .closing
  return ⟨source, label, target⟩

/-- `( edges EDGE* )` -/
def edges : Reader (List Triple) := tracked .edges do
  let _ ← token .opening
  keyword "edges".toList
  let list ← many edge
  let _ ← token .closing
  return list

/-- `( from NAME )` -/
def domain : Reader Name := tracked .domain do
  let _ ← token .opening
  keyword "from".toList
  let graph ← name
  let _ ← token .closing
  return graph

/-- `( to NAME )` -/
def codomain : Reader Name := tracked .codomain do
  let _ ← token .opening
  keyword "to".toList
  let graph ← name
  let _ ← token .closing
  return graph

/-- `( NAME NAME )` -/
def pair : Reader (Name × Name) := tracked .pair do
  let _ ← token .opening
  let label ← name
  let image ← name
  let _ ← token .closing
  return (label, image)

/-- `( map PAIR* )` -/
def map : Reader (List (Name × Name)) := tracked .map do
  let _ ← token .opening
  keyword "map".toList
  let pairs ← many pair
  let _ ← token .closing
  return pairs

end Grammar

/-- A definition with the numbers of the tokens that open and close it. -/
structure PlacedDefinition where
  /-- The definition. -/
  definition : Definition
  /-- The number of the opening parenthesis. -/
  opening : Nat
  /-- The number of the closing parenthesis. -/
  closing : Nat
deriving DecidableEq

namespace Grammar

open Reader

/-! ## Definitions -/

/-- `( graph NAME [NODES] [EDGES] )` -/
def graph : Reader PlacedDefinition := tracked .graph do
  let opening ← token .opening
  keyword "graph".toList
  let called ← name
  let nodeList ← optional nodes
  let edgeList ← optional edges
  let closing ← token .closing
  return ⟨.graph ⟨called, nodeList.getD [], edgeList.getD []⟩, opening, closing⟩

/-- `( morphism NAME DOMAIN CODOMAIN [MAP] )` -/
def morphism : Reader PlacedDefinition := tracked .morphism do
  let opening ← token .opening
  keyword "morphism".toList
  let called ← name
  let source ← domain
  let target ← codomain
  let pairs ← optional map
  let closing ← token .closing
  return ⟨.morphism ⟨called, source, target, pairs.getD []⟩, opening, closing⟩

/-- All definitions up to the end of the text. -/
def definitions : Reader (List PlacedDefinition) := do
  let list ← many (either graph morphism)
  tracked .endOfInput noToken
  return list

end Grammar

/-- The definitions a sequence of tokens spells, or the failures met if it spells none. -/
def readDefinitions (tokens : List Token) : Except (List Failure) (List PlacedDefinition) :=
  match Grammar.definitions ⟨Place.first, tokens⟩ with
  | ⟨failures, none⟩ => .error failures
  | ⟨_, some (list, _)⟩ => .ok list

end GraphHom
