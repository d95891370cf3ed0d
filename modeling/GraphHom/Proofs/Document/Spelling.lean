import GraphHom.Document.Basic
import GraphHom.Document.Token

/-!
# What tokens spell

`Spells d ts` says that the tokens `ts` are the definition `d`, written as

    ( graph NAME [( nodes NAME* )] [( edges ( NAME NAME NAME )* )] )
    ( morphism NAME ( from NAME ) ( to NAME ) [( map ( NAME NAME )* )] )

It says so without reading: there is no order of attempts, no going on as long as possible and nothing
that is looked at ahead. A keyword may stand by itself or at the front of the next name
(`Keyworded`). Bracketed parts with different keywords cannot be taken for each other as long as neither
keyword begins the other (`Bracketed.append_ne`).
-/

namespace GraphHom

variable {β τ : Type}

/-! ## Parts -/

/-- The word that a name is written as. -/
def Name.token (n : Name) : Token := .word n.text.toList

/-- The tokens of an edge: `( NAME NAME NAME )`. -/
def Triple.tokens (t : Triple) : List Token :=
  [.opening, t.source.token, t.label.token, t.target.token, .closing]

/-- The tokens of a label with its image: `( NAME NAME )`. -/
def imageTokens (p : Name × Name) : List Token := [.opening, p.1.token, p.2.token, .closing]

/-- A keyword in front of `body`, either a word of its own or the beginning of the first word. -/
inductive Keyworded (keyword : List Char) : (body ts : List Token) → Prop
  /-- The keyword is a word. -/
  | apart (body : List Token) : Keyworded keyword body (.word keyword :: body)
  /-- The keyword and the first word of `body` are written as one word. -/
  | glued {more : List Char} (body : List Token) (hne : more ≠ []) :
      Keyworded keyword (.word more :: body) (.word (keyword ++ more) :: body)

/-- `( KEYWORD body )` -/
def Bracketed (keyword : String) (body ts : List Token) : Prop :=
  ∃ inner, Keyworded keyword.toList body inner ∧ ts = .opening :: (inner ++ [.closing])

/-- `[( KEYWORD body )]`, where the part that is left out has an empty body. -/
def Optionally (keyword : String) (body ts : List Token) : Prop :=
  (body = [] ∧ ts = []) ∨ Bracketed keyword body ts

/-- What `S` relates to the elements of a list stands one after the other. -/
inductive InTurn (S : β → List τ → Prop) : List β → List τ → Prop
  /-- Nothing, for no elements. -/
  | nil : InTurn S [] []
  /-- What belongs to the first element, then what belongs to the others. -/
  | cons {b : β} {bs : List β} {part ts : List τ} (hb : S b part) (hbs : InTurn S bs ts) :
      InTurn S (b :: bs) (part ++ ts)

/-! ## Definitions -/

/-- `NAME [( nodes NAME* )] [( edges ( NAME NAME NAME )* )]` -/
def GraphDef.HasBody (g : GraphDef) (body : List Token) : Prop :=
  ∃ nodes edges, Optionally "nodes" (g.nodes.map Name.token) nodes ∧
    Optionally "edges" (g.edges.flatMap Triple.tokens) edges ∧
    body = g.name.token :: (nodes ++ edges)

/-- `NAME ( from NAME ) ( to NAME ) [( map ( NAME NAME )* )]` -/
def MorphismDef.HasBody (m : MorphismDef) (body : List Token) : Prop :=
  ∃ domain codomain map, Bracketed "from" [m.domain.token] domain ∧
    Bracketed "to" [m.codomain.token] codomain ∧
    Optionally "map" (m.map.flatMap imageTokens) map ∧
    body = m.name.token :: (domain ++ (codomain ++ map))

/-- The tokens are those of a definition. -/
inductive Spells : Definition → List Token → Prop
  /-- `( graph BODY )` -/
  | graph {g : GraphDef} {body ts : List Token} (hbody : g.HasBody body)
      (h : Bracketed "graph" body ts) : Spells (.graph g) ts
  /-- `( morphism BODY )` -/
  | morphism {m : MorphismDef} {body ts : List Token} (hbody : m.HasBody body)
      (h : Bracketed "morphism" body ts) : Spells (.morphism m) ts

/-! ## Telling parts apart -/

variable {keyword keyword' : String} {k : List Char} {body body' ts ts' us us' rest : List Token}
  {bs : List β} {d : Definition}

/-- What a keyword stands in front of begins with a word that the keyword begins. -/
theorem Keyworded.exists_word (h : Keyworded k body ts) :
    ∃ w us, ts = .word w :: us ∧ k <+: w := by
  cases h with
  | apart => exact ⟨k, body, rfl, List.prefix_rfl⟩
  | @glued more us _ => exact ⟨k ++ more, us, rfl, List.prefix_append _ _⟩

theorem Bracketed.ne_nil (h : Bracketed keyword body ts) : ts ≠ [] := by
  obtain ⟨inner, -, rfl⟩ := h
  exact List.cons_ne_nil _ _

/-- A bracketed part is not a closing parenthesis. -/
theorem Bracketed.append_ne_closing (h : Bracketed keyword body ts) :
    .closing :: rest ≠ ts ++ us := by
  obtain ⟨inner, -, rfl⟩ := h
  simp

/-- Bracketed parts differ if neither of their keywords begins the other. -/
theorem Bracketed.append_ne (h : Bracketed keyword body ts) (h' : Bracketed keyword' body' ts')
    (hk : ¬keyword.toList <+: keyword'.toList) (hk' : ¬keyword'.toList <+: keyword.toList) :
    ts ++ us ≠ ts' ++ us' := by
  obtain ⟨inner, hinner, rfl⟩ := h
  obtain ⟨inner', hinner', rfl⟩ := h'
  obtain ⟨w, ws, rfl, hw⟩ := hinner.exists_word
  obtain ⟨w', ws', rfl, hw'⟩ := hinner'.exists_word
  intro heq
  have hword : w = w' := by
    simp only [List.cons_append, List.cons.injEq, Token.word.injEq] at heq
    exact heq.2.1
  rcases List.prefix_or_prefix_of_prefix hw (hword ▸ hw') with hp | hp
  · exact hk hp
  · exact hk' hp

/-- A part that may be left out, before a closing parenthesis, does not begin like one with another
keyword. -/
theorem Optionally.append_closing_ne (h : Optionally keyword body ts)
    (h' : Bracketed keyword' body' ts') (hk : ¬keyword.toList <+: keyword'.toList)
    (hk' : ¬keyword'.toList <+: keyword.toList) : ts ++ .closing :: rest ≠ ts' ++ us' := by
  rcases h with ⟨-, rfl⟩ | h
  · exact h'.append_ne_closing
  · exact h.append_ne h' hk hk'

theorem Spells.ne_nil (h : Spells d ts) : ts ≠ [] := by
  cases h with
  | graph _ h => exact h.ne_nil
  | morphism _ h => exact h.ne_nil

/-- If each element has its one way of being written, so has the list. -/
theorem inTurn_eq_iff {f : β → List τ} {l : List τ} :
    InTurn (fun b l => l = f b) bs l ↔ l = bs.flatMap f := by
  constructor
  · intro h
    induction h with
    | nil => rfl
    | cons hb _ ih => rw [hb, ih, List.flatMap_cons]
  · rintro rfl
    induction bs with
    | nil => exact .nil
    | cons b bs ih =>
      rw [List.flatMap_cons]
      exact .cons rfl ih

theorem InTurn.map {γ : Type} {S : β → List τ → Prop} {f : γ → β} {cs : List γ} {l : List τ}
    (h : InTurn (fun c l => S (f c) l) cs l) : InTurn S (cs.map f) l := by
  induction h with
  | nil => exact .nil
  | cons hb _ ih => exact .cons hb ih

/-- If the parts of each element give that element back, so do the parts of the list. -/
theorem InTurn.flatMap_eq {S : β → List τ → Prop} {f : τ → List β} {l : List τ}
    (h : InTurn S bs l) (hS : ∀ b part, S b part → part.flatMap f = [b]) : l.flatMap f = bs := by
  induction h with
  | nil => rfl
  | cons hb _ ih => rw [List.flatMap_append, hS _ _ hb, ih, List.singleton_append]

end GraphHom
