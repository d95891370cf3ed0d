import GraphHom.Document.Token
import GraphHom.Name

/-!
# Readers

A `Reader` is a step of a deterministic reading of tokens: it goes on or fails, and either way it
leaves behind the failures met on the way. A failure records which construct was tried and where it
should have started. Choices and repetitions go on after a failure but do not forget it, so that the
failures furthest into the text (`furthest`, `expectedAt`) tell what could have stood there.

A keyword is taken from the front of a word, and what is left of the word is read next. A place
therefore is a number of tokens and an offset inside the token that follows them.
-/

namespace GraphHom

/-! ## Places, constructs, failures -/

/-- A place in a sequence of tokens. -/
structure Place where
  /-- The number of tokens before the place. -/
  token : Nat
  /-- The number of characters of the token at the place that lie before it. -/
  offset : Nat
deriving DecidableEq

namespace Place

instance : LE Place where
  le p q := p.token < q.token ∨ (p.token = q.token ∧ p.offset ≤ q.offset)

instance : DecidableLE Place := fun _ _ => inferInstanceAs (Decidable (_ ∨ _))

instance : Max Place := ⟨fun p q => if p ≤ q then q else p⟩

/-- The place before all tokens. -/
def first : Place := ⟨0, 0⟩

end Place

/-- The parts of a document whose absence is reported. -/
inductive Construct where
  /-- The end of the text. -/
  | endOfInput
  /-- A name. -/
  | name
  /-- A list of nodes. -/
  | nodes
  /-- An edge. -/
  | edge
  /-- A list of edges. -/
  | edges
  /-- The definition of a graph. -/
  | graph
  /-- The domain of a morphism. -/
  | domain
  /-- The codomain of a morphism. -/
  | codomain
  /-- A label with its image. -/
  | pair
  /-- A list of labels with their images. -/
  | map
  /-- The definition of a morphism. -/
  | morphism
deriving DecidableEq

namespace Construct

/-- All constructs, in the order in which they are reported. -/
def all : List Construct :=
  [endOfInput, name, nodes, edge, edges, graph, domain, codomain, pair, map, morphism]

theorem mem_all (c : Construct) : c ∈ all := by cases c <;> decide

end Construct

/-- A construct that was tried in vain, and where it should have started. -/
structure Failure where
  /-- Where the construct should have started. -/
  place : Place
  /-- The construct. -/
  construct : Construct
deriving DecidableEq

/-- The furthest place of any failure. -/
def furthest (failures : List Failure) : Place :=
  (failures.map Failure.place).foldl max Place.first

/-- The constructs that failed at a place, each once and in order. -/
def expectedAt (failures : List Failure) (place : Place) : List Construct :=
  Construct.all.filter fun construct => ⟨place, construct⟩ ∈ failures

/-! ## Readers -/

/-- A place with the tokens that follow it; the first may be the rest of a word. -/
structure Cursor where
  /-- The place reached. -/
  place : Place
  /-- What is still to be read. -/
  rest : List Token
deriving DecidableEq

/-- What a step of reading leaves behind. -/
structure Attempt (α : Type) where
  /-- The failures met, earliest first. -/
  failures : List Failure
  /-- What was read and where reading goes on, unless the step failed. -/
  outcome : Option (α × Cursor)

/-- A step of reading. -/
def Reader (α : Type) : Type := Cursor → Attempt α

namespace Reader

variable {α β : Type}

instance : Monad Reader where
  pure a := fun c => ⟨[], some (a, c)⟩
  bind r f := fun c =>
    match r c with
    | ⟨failures, none⟩ => ⟨failures, none⟩
    | ⟨failures, some (a, c')⟩ =>
      let next := f a c'
      ⟨failures ++ next.failures, next.outcome⟩

/-- Reads the given token and answers its number. -/
def token (t : Token) : Reader Nat := fun c =>
  match c.rest with
  | [] => ⟨[], none⟩
  | u :: rest =>
    if u = t then ⟨[], some (c.place.token, ⟨⟨c.place.token + 1, 0⟩, rest⟩)⟩ else ⟨[], none⟩

/-- Reads a keyword off the front of a word. -/
def keyword (chars : List Char) : Reader Unit := fun c =>
  match c.rest with
  | .word word :: rest =>
    match chars.isPrefixOf? word with
    | none => ⟨[], none⟩
    | some [] => ⟨[], some ((), ⟨⟨c.place.token + 1, 0⟩, rest⟩)⟩
    | some more =>
      let place := ⟨c.place.token, c.place.offset + chars.length⟩
      ⟨[], some ((), ⟨place, .word more :: rest⟩)⟩
  | _ => ⟨[], none⟩

/-- Reads a word, or what is left of one. -/
def word : Reader Name := fun c =>
  match c.rest with
  | .word chars :: rest => ⟨[], some (⟨String.ofList chars⟩, ⟨⟨c.place.token + 1, 0⟩, rest⟩)⟩
  | _ => ⟨[], none⟩

/-- Goes on if no token is left. -/
def noToken : Reader Unit := fun c =>
  if c.rest.isEmpty then ⟨[], some ((), c)⟩ else ⟨[], none⟩

/-- Records a failure of `r` as a failure of `construct` where `r` started. -/
def tracked (construct : Construct) (r : Reader α) : Reader α := fun c =>
  match r c with
  | ⟨failures, none⟩ => ⟨failures ++ [⟨c.place, construct⟩], none⟩
  | attempt => attempt

/-- Reads with `r`, or reads nothing. -/
def optional (r : Reader α) : Reader (Option α) := fun c =>
  match r c with
  | ⟨failures, none⟩ => ⟨failures, some (none, c)⟩
  | ⟨failures, some (a, c')⟩ => ⟨failures, some (some a, c')⟩

/-- Reads with `r`, or else with `s`. -/
def either (r s : Reader α) : Reader α := fun c =>
  match r c with
  | ⟨failures, none⟩ =>
    let other := s c
    ⟨failures ++ other.failures, other.outcome⟩
  | attempt => attempt

/-- Reads with `r` as often as it goes on and uses up tokens. -/
def many (r : Reader α) : Reader (List α) := fun c =>
  match r c with
  | ⟨failures, none⟩ => ⟨failures, some ([], c)⟩
  | ⟨failures, some (a, c')⟩ =>
    if c'.rest.length < c.rest.length then
      let more := many r c'
      ⟨failures ++ more.failures, more.outcome.map fun (as, c'') => (a :: as, c'')⟩
    else ⟨failures, some ([a], c')⟩
termination_by c => c.rest.length

end Reader

end GraphHom
