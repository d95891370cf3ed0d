import GraphHom.Document.Basic
import GraphHom.Document.Reader
import Mathlib.Data.List.Basic

/-!
# Documents as parsing expressions

Parsing expressions match characters, not tokens: a choice takes the first alternative that matches, a
repetition takes as much as it can, and what was taken is not given back. Blanks and comments are
skipped between the items of a sequence or of a repetition, unless it is atomic. A rule leaves a tree
with the characters it has matched and the trees of the rules inside it.

`Peg.document` is the grammar of documents in this form. `Peg.parse` takes the trees it leaves into a
document, one definition after the other, and refuses a definition whose name is taken.
-/

namespace GraphHom

/-- A tree left by a rule: which rule, the characters it matched, and the trees inside. -/
inductive Tree where
  /-- A rule with what it matched. -/
  | node (construct : Construct) (chars : List Char) (children : List Tree)

/-- Parsing expressions. -/
inductive Peg where
  /-- The start of the text. -/
  | startOfInput
  /-- The end of the text. -/
  | endOfInput
  /-- These characters. -/
  | literal (chars : List Char)
  /-- Any character. -/
  | any
  /-- Not the expression; takes nothing. -/
  | absent (e : Peg)
  /-- The first, then the second. -/
  | seq (e f : Peg)
  /-- The first, or the second if the first does not match. -/
  | choice (e f : Peg)
  /-- The expression if it matches. -/
  | optional (e : Peg)
  /-- The expression as often as it matches. -/
  | many (e : Peg)
  /-- The expression, without skipping inside. -/
  | atomic (e : Peg)
  /-- The expression, leaving a tree. -/
  | rule (construct : Construct) (e : Peg)

namespace Peg

/-! ## Matching -/

/-- What is left of the text after a match, and the trees of the rules that matched. -/
abbrev Match : Type := List Char × List Tree

/-- Goes on with `f` as often as it matches and uses up characters. -/
def repeated (f : List Char → Option Match) (cs : List Char) : Match :=
  match f cs with
  | none => (cs, [])
  | some (cs', ts) =>
    if cs'.length < cs.length then
      let more := repeated f cs'
      (more.1, ts ++ more.2)
    else (cs', ts)
termination_by cs.length

/-- Matches the beginning of what is left of a text of `total` characters. -/
def run (total : Nat) (skip : List Char → List Char) : Peg → List Char → Option Match
  | startOfInput, cs => if cs.length = total then some (cs, []) else none
  | endOfInput, cs => if cs.isEmpty then some ([], [.node .endOfInput [] []]) else none
  | literal chars, cs => (chars.isPrefixOf? cs).map fun rest => (rest, [])
  | any, [] => none
  | any, _ :: cs => some (cs, [])
  | absent e, cs => if (run total skip e cs).isSome then none else some (cs, [])
  | seq e f, cs => do
    let (cs', ts) ← run total skip e cs
    let (cs'', us) ← run total skip f (skip cs')
    return (cs'', ts ++ us)
  | choice e f, cs => (run total skip e cs).or (run total skip f cs)
  | optional e, cs => some ((run total skip e cs).getD (cs, []))
  | many e, cs =>
    match run total skip e cs with
    | none => some (cs, [])
    | some (cs', ts) =>
      if cs'.length < cs.length then
        let more := repeated (fun ds => run total skip e (skip ds)) cs'
        some (more.1, ts ++ more.2)
      else some (cs', ts)
  | atomic e, cs => run total id e cs
  | rule k e, cs => (run total skip e cs).map fun (rest, ts) =>
    (rest, [.node k (cs.take (cs.length - rest.length)) ts])

/-! ## Skipping -/

/-- A character that stands for itself. -/
def char (c : Char) : Peg := literal [c]

/-- A text that stands for itself. -/
def text (s : String) : Peg := literal s.toList

/-- Space, tab, carriage return or line feed. -/
def whitespace : Peg := choice (char ' ') (choice (char '\t') (choice (char '\r') (char '\n')))

/-- From a semicolon to just before the next line feed. -/
def comment : Peg := seq (char ';') (many (seq (absent (char '\n')) any))

/-- Blanks and comments. -/
def ignored : Peg := seq (many whitespace) (many (seq comment (many whitespace)))

/-- The text without the blanks and comments it starts with. -/
def skip (cs : List Char) : List Char := ((run cs.length id ignored cs).map Prod.fst).getD cs

/-! ## The grammar -/

/-- A blank, a parenthesis or a semicolon. -/
def separator : Peg :=
  choice (char ' ') (choice (char '\t') (choice (char '\r') (choice (char '\n')
    (choice (char '(') (choice (char ')') (char ';'))))))

/-- A character of a name. -/
def nameChar : Peg := seq (absent separator) any

/-- A name: characters that are no separators, as many as follow each other. -/
def name : Peg := rule .name (atomic (seq nameChar (many nameChar)))

/-- `( nodes NAME* )` -/
def nodes : Peg := rule .nodes (seq (char '(') (seq (text "nodes") (seq (many name) (char ')'))))

/-- `( NAME NAME NAME )` -/
def edge : Peg := rule .edge (seq (char '(') (seq name (seq name (seq name (char ')')))))

/-- `( edges EDGE* )` -/
def edges : Peg := rule .edges (seq (char '(') (seq (text "edges") (seq (many edge) (char ')'))))

/-- `( graph NAME [NODES] [EDGES] )` -/
def graph : Peg := rule .graph (seq (char '(') (seq (text "graph") (seq name
  (seq (optional nodes) (seq (optional edges) (char ')'))))))

/-- `( from NAME )` -/
def domain : Peg := rule .domain (seq (char '(') (seq (text "from") (seq name (char ')'))))

/-- `( to NAME )` -/
def codomain : Peg := rule .codomain (seq (char '(') (seq (text "to") (seq name (char ')'))))

/-- `( NAME NAME )` -/
def pair : Peg := rule .pair (seq (char '(') (seq name (seq name (char ')'))))

/-- `( map PAIR* )` -/
def map : Peg := rule .map (seq (char '(') (seq (text "map") (seq (many pair) (char ')'))))

/-- `( morphism NAME DOMAIN CODOMAIN [MAP] )` -/
def morphism : Peg := rule .morphism (seq (char '(') (seq (text "morphism") (seq name
  (seq domain (seq codomain (seq (optional map) (char ')')))))))

/-- A sequence of definitions from the start of the text to its end. -/
def document : Peg := seq startOfInput (seq (many (choice graph morphism)) endOfInput)

end Peg

/-! ## Reading trees -/

namespace Tree

/-- The matched characters as a name. -/
def name : Tree → Name
  | node _ chars _ => ⟨String.ofList chars⟩

/-- The names of the trees inside. -/
def childNames : Tree → List Name
  | node _ _ children => children.map name

/-- Names by threes, as edges; what is left over is dropped. -/
def byThrees : List Name → List Triple
  | source :: label :: target :: names => ⟨source, label, target⟩ :: byThrees names
  | _ => []

/-- Names by twos; what is left over is dropped. -/
def byTwos : List Name → List (Name × Name)
  | label :: image :: names => (label, image) :: byTwos names
  | _ => []

/-- A graph definition in the making: the last name met, and all nodes and edges so far. -/
abbrev GraphParts : Type := Option Name × List Name × List Triple

/-- Takes one tree into a graph definition. -/
def addToGraph : GraphParts → Tree → Option GraphParts
  | (_, ns, es), t@(node .name _ _) => some (some t.name, ns, es)
  | (n, ns, es), t@(node .nodes _ _) => some (n, ns ++ t.childNames, es)
  | (n, ns, es), node .edges _ children =>
    some (n, ns, es ++ children.flatMap fun t => byThrees t.childNames)
  | _, _ => none

/-- The graph definition the trees inside a rule amount to. -/
def graphDef (children : List Tree) : Option GraphDef := do
  let (called, ns, es) ← children.foldlM addToGraph (none, [], [])
  let called ← called
  return ⟨called, ns, es⟩

/-- Takes one tree into a morphism definition in the making: all names and all images so far. -/
def addToMorphism : List Name × List (Name × Name) → Tree → Option (List Name × List (Name × Name))
  | (names, ps), t@(node .name _ _) => some (names ++ [t.name], ps)
  | (names, ps), t@(node .domain _ _) => some (names ++ t.childNames, ps)
  | (names, ps), t@(node .codomain _ _) => some (names ++ t.childNames, ps)
  | (names, ps), node .map _ children =>
    some (names, ps ++ children.flatMap fun t => byTwos t.childNames)
  | _, _ => none

/-- The morphism definition the trees inside a rule amount to. -/
def morphismDef (children : List Tree) : Option MorphismDef := do
  let (names, ps) ← children.foldlM addToMorphism ([], [])
  match names with
  | [called, domain, codomain] => some ⟨called, domain, codomain, ps⟩
  | _ => none

/-- The definition a tree amounts to. -/
def definition : Tree → Option Definition
  | node .graph _ children => (graphDef children).map .graph
  | node .morphism _ children => (morphismDef children).map .morphism
  | _ => none

end Tree

namespace Document

/-- The document with one more definition at the end. -/
def push (d : Document) : Definition → Document
  | .graph g => { d with graphs := d.graphs ++ [g] }
  | .morphism m => { d with morphisms := d.morphisms ++ [m] }

/-- Takes trees into a document one by one, unless a name is defined twice. -/
def pushTrees (d : Document) : List Tree → Option Document
  | [] => some d
  | .node .endOfInput _ _ :: trees => pushTrees d trees
  | t :: trees => do
    let definition ← t.definition
    if d.defines definition.name then none else pushTrees (d.push definition) trees

end Document

/-- The document that a text is, read character by character. -/
def Peg.parse (text : String) : Option Document := do
  let (_, trees) ← run text.toList.length skip document text.toList
  Document.empty.pushTrees trees

/-! ## What is left of a text -/

namespace Peg

variable {total : Nat} {cs : List Char} {e : Peg} {sk : List Char → List Char}

/-- A repetition leaves an end of the text if each match does. -/
theorem repeated_suffix {g : List Char → Option Match}
    (hg : ∀ cs x, g cs = some x → x.1 <:+ cs) (cs : List Char) : (repeated g cs).1 <:+ cs := by
  induction hn : cs.length using Nat.strongRecOn generalizing cs with
  | _ n ih =>
    rw [repeated]
    match hx : g cs with
    | none => exact List.suffix_rfl
    | some (cs', ts) =>
      have hsuffix : cs' <:+ cs := hg cs _ hx
      simp only
      split
      · rename_i hlen
        exact (ih cs'.length (hn ▸ hlen) cs' rfl).trans hsuffix
      · exact hsuffix

/-- What is left after a match is an end of the text. -/
theorem run_suffix (hsk : ∀ cs, sk cs <:+ cs) {x : Match} (h : run total sk e cs = some x) :
    x.1 <:+ cs := by
  induction e generalizing sk cs x with
  | startOfInput =>
    simp only [run, Option.ite_none_right_eq_some, Option.some.injEq] at h
    obtain ⟨-, rfl⟩ := h
    exact List.suffix_rfl
  | endOfInput =>
    simp only [run, Option.ite_none_right_eq_some, Option.some.injEq] at h
    obtain ⟨-, rfl⟩ := h
    exact List.nil_suffix
  | literal chars =>
    simp only [run, Option.map_eq_some_iff, List.isPrefixOf?_eq_some_iff_append_eq] at h
    obtain ⟨rest, rfl, rfl⟩ := h
    exact List.suffix_append _ _
  | any =>
    cases cs with
    | nil => simp [run] at h
    | cons c cs =>
      simp only [run, Option.some.injEq] at h
      rw [← h]
      exact List.suffix_cons c cs
  | absent e ih =>
    simp only [run, Option.ite_none_left_eq_some, Option.some.injEq] at h
    obtain ⟨-, rfl⟩ := h
    exact List.suffix_rfl
  | seq e f ihe ihf =>
    simp only [run, Option.bind_eq_bind, Option.bind_eq_some_iff, Option.pure_def,
      Option.some.injEq] at h
    obtain ⟨⟨cs', ts⟩, he, ⟨cs'', us⟩, hf, rfl⟩ := h
    exact (ihf hsk hf).trans ((hsk cs').trans (ihe hsk he))
  | choice e f ihe ihf =>
    rw [run, Option.or_eq_some_iff] at h
    rcases h with h | ⟨-, h⟩
    · exact ihe hsk h
    · exact ihf hsk h
  | optional e ih =>
    rw [run, Option.some.injEq] at h
    match hx : run total sk e cs with
    | none =>
      rw [hx] at h
      rw [← h]
      exact List.suffix_rfl
    | some y =>
      rw [hx] at h
      rw [← h]
      exact ih hsk hx
  | many e ih =>
    rw [run] at h
    match hx : run total sk e cs with
    | none =>
      rw [hx] at h
      cases h
      exact List.suffix_rfl
    | some (cs', ts) =>
      have hsuffix : cs' <:+ cs := ih hsk hx
      have hrepeated : ∀ ds, (repeated (fun ds => run total sk e (sk ds)) ds).1 <:+ ds :=
        repeated_suffix fun ds y hy => (ih hsk hy).trans (hsk ds)
      rw [hx] at h
      simp only at h
      split at h
      · cases h
        exact (hrepeated cs').trans hsuffix
      · cases h
        exact hsuffix
  | atomic e ih =>
    rw [run] at h
    exact ih (fun _ => List.suffix_rfl) h
  | rule k e ih =>
    simp only [run, Option.map_eq_some_iff] at h
    obtain ⟨y, hx, rfl⟩ := h
    have hsuffix : y.1 <:+ cs := ih hsk hx
    exact hsuffix

end Peg

end GraphHom
