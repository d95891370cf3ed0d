import GraphHom.Document.Grammar
import GraphHom.Repetition

/-!
# Reading documents

`Document.ofTokens` reads tokens as a document. Tokens that do not follow the grammar are refused
before repeated definitions are looked at; the report names the furthest place that was reached and
what could have stood there. A name may be defined once, graphs and morphisms taken together; the
report names the first definition that repeats a name, with the places where it starts and ends.

`Document.parse` reads a text, and reports places as lines and columns. It adds nothing else: what a
text means, and why it is refused, depends on its tokens only.
-/

namespace GraphHom

/-- The name under which a construct is reported. -/
def Construct.text : Construct → String
  | endOfInput => "EOI"
  | name => "name"
  | nodes => "nodes_stat"
  | edge => "edge"
  | edges => "edges_stat"
  | graph => "graph_def"
  | domain => "from_stat"
  | codomain => "to_stat"
  | pair => "pair"
  | map => "map_stat"
  | morphism => "morphism_def"

/-- A list of alternatives in words: `a`, `a or b`, `a, b, or c`. -/
def alternatives : List String → String
  | [] => ""
  | [a] => a
  | [a, b] => a ++ " or " ++ b
  | items => ", ".intercalate items.dropLast ++ ", or " ++ items.getLastD ""

/-- Why a text is no document, with places of type `π`. -/
inductive ParseError (π : Type) where
  /-- Something else than the expected constructs stands at a place. -/
  | unexpected (place : π) (expected : List Construct)
  /-- A definition, from its start to just after its end, repeats a name. -/
  | duplicate (name : Name) (start stop : π)
deriving DecidableEq

namespace ParseError

variable {π ρ : Type}

/-- The same error with other places. -/
def map (f : π → ρ) : ParseError π → ParseError ρ
  | unexpected place expected => unexpected (f place) expected
  | duplicate name start stop => duplicate name (f start) (f stop)

/-- The wording of an error. -/
def message : ParseError π → String
  | unexpected _ expected => "expected " ++ alternatives (expected.map Construct.text)
  | duplicate name _ _ => s!"{name} is defined twice"

end ParseError

/-- The document a sequence of tokens spells, or the reason why it spells none. -/
def Document.ofTokens (tokens : List Token) : Except (ParseError Place) Document :=
  match readDefinitions tokens with
  | .error failures =>
    let place := furthest failures
    .error (.unexpected place (expectedAt failures place))
  | .ok list =>
    match firstRepeat? (fun d : PlacedDefinition => d.definition.name) list with
    | some d => .error (.duplicate d.definition.name ⟨d.opening, 0⟩ ⟨d.closing, 1⟩)
    | none => .ok (Document.ofDefinitions (list.map PlacedDefinition.definition))

/-! ## From texts -/

/-- A text with its lexemes, and the place where it ends. -/
structure Layout where
  /-- The tokens with their starts. -/
  lexemes : List Lexeme
  /-- The place just after the last character. -/
  stop : Position

namespace Layout

/-- The layout of a text. -/
def ofText (text : String) : Layout where
  lexemes := GraphHom.lexemes Position.start text.toList
  stop := Position.start.advance text.toList

/-- Where a place among the tokens lies in the text; after all tokens it is the end of the text. -/
def position (l : Layout) (p : Place) : Position :=
  match l.lexemes[p.token]? with
  | some lexeme => lexeme.start.right p.offset
  | none => l.stop

end Layout

/-- The document a text spells, or the reason why it spells none. -/
def Document.parse (text : String) : Except (ParseError Position) Document :=
  let layout := Layout.ofText text
  (Document.ofTokens (layout.lexemes.map Lexeme.token)).mapError (ParseError.map layout.position)

end GraphHom
