/-!
# Tokens

A document is a sequence of tokens: parentheses and words. Blanks and comments only separate them. A
word is a maximal run of characters that are neither blank nor one of `(`, `)` and `;`; a comment
runs from a semicolon to just before the next line feed.

`lexemes` lists the tokens of a text with the places where they start; which tokens there are does
not depend on where the text starts.
-/

namespace GraphHom

/-- A place in a text: line and column, both counted from one. -/
structure Position where
  /-- The line, counted from one. -/
  line : Nat
  /-- The column in code points, counted from one. -/
  column : Nat
deriving DecidableEq

namespace Position

/-- The place of the first character. -/
def start : Position := ⟨1, 1⟩

/-- The place just after a character: a line feed ends the line, any other character takes a
column. -/
def next (p : Position) (c : Char) : Position :=
  if c = '\n' then ⟨p.line + 1, 1⟩ else ⟨p.line, p.column + 1⟩

/-- The place just after a run of characters. -/
def advance (p : Position) (cs : List Char) : Position := cs.foldl next p

/-- The place `n` columns further on in the same line. -/
def right (p : Position) (n : Nat) : Position := ⟨p.line, p.column + n⟩

end Position

/-- The smallest parts of a document. -/
inductive Token where
  /-- An opening parenthesis. -/
  | opening
  /-- A closing parenthesis. -/
  | closing
  /-- A word. -/
  | word (chars : List Char)
deriving DecidableEq

/-- A token and the place where it starts. -/
structure Lexeme where
  /-- The token. -/
  token : Token
  /-- The place of its first character. -/
  start : Position
deriving DecidableEq

/-- The characters that separate tokens without meaning: space, tab, carriage return, line feed. -/
def isBlank (c : Char) : Bool := c = ' ' || c = '\t' || c = '\r' || c = '\n'

/-- The characters a word is made of. -/
def isWordChar (c : Char) : Bool := !isBlank c && c ≠ '(' && c ≠ ')' && c ≠ ';'

/-- The lexemes of a text that starts at `p`. -/
def lexemes (p : Position) : List Char → List Lexeme
  | [] => []
  | c :: cs =>
    if isBlank c then lexemes (p.next c) cs
    else if c = '(' then ⟨.opening, p⟩ :: lexemes (p.next c) cs
    else if c = ')' then ⟨.closing, p⟩ :: lexemes (p.next c) cs
    else if c = ';' then
      lexemes (p.advance (c :: cs.takeWhile (· ≠ '\n'))) (cs.dropWhile (· ≠ '\n'))
    else
      let word := c :: cs.takeWhile isWordChar
      ⟨.word word, p⟩ :: lexemes (p.advance word) (cs.dropWhile isWordChar)
termination_by cs => cs.length
decreasing_by
  · exact Nat.lt_succ_self _
  · exact Nat.lt_succ_self _
  · exact Nat.lt_succ_self _
  · exact Nat.lt_succ_of_le (List.dropWhile_suffix _).length_le
  · exact Nat.lt_succ_of_le (List.dropWhile_suffix _).length_le

end GraphHom
