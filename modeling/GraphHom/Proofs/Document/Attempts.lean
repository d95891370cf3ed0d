import GraphHom.Document.Parse
import GraphHom.Proofs.Document.Peg

/-!
# What was tried in vain

While an expression is matched, the rules that fail are kept track of: the furthest place where one failed,
as the number of characters before it, and the rules that failed there. Nothing is taken back when matching
goes on with an alternative, after an optional part or after a repetition. `Attempts.track` is what one
failing rule does, and `Peg.tried` what matching an expression does.

`Peg.error?` reports why a text is no document: what was tried in vain furthest into the text, or the first
definition that repeats a name, with the places where it starts and ends.

As long as no rule fails where a rule around it started, tracking comes to noting each failure by itself
(`Attempts.track_eq_note`). What all notes come to does not depend on their order: the furthest place, and
whatever failed there (`Attempts.mem_foldl_note_iff`).
-/

namespace GraphHom

/-- The furthest place where a rule failed, and the rules that failed there, earliest first. -/
structure Attempts where
  /-- The number of characters before the place. -/
  offset : Nat
  /-- The rules that failed. -/
  constructs : List Construct
deriving DecidableEq

namespace Attempts

/-- Before anything is tried. -/
def initial : Attempts := ⟨0, []⟩

/-- How many rules have failed at a place, if it is the furthest. -/
def countAt (a : Attempts) (offset : Nat) : Nat :=
  if offset = a.offset then a.constructs.length else 0

/-- Takes in that a rule failed at `offset`. When it was entered the attempts were `before`; what has failed
at the same place since then is dropped for it, unless that is one rule only, which then stands for it. -/
def track (construct : Construct) (offset : Nat) (before after : Attempts) : Attempts :=
  if after.countAt offset = before.countAt offset + 1 then after
  else if offset < after.offset then after
  else if offset = after.offset then
    ⟨offset, after.constructs.take (before.countAt offset) ++ [construct]⟩
  else ⟨offset, [construct]⟩

/-- The rules that are reported, each once and in order. -/
def expected (a : Attempts) : List Construct :=
  Construct.all.filter fun construct => construct ∈ a.constructs

end Attempts

namespace Peg

/-! ## Matching with attempts -/

/-- The attempts after a repetition that goes on with `f`, where each turn does to them what `g` says. -/
def triedAgain (f : List Char → Option Match) (g : List Char → Attempts → Attempts)
    (cs : List Char) (a : Attempts) : Attempts :=
  match f cs with
  | none => g cs a
  | some (cs', _) => if cs'.length < cs.length then triedAgain f g cs' (g cs a) else g cs a
termination_by cs.length

/-- The attempts after `Peg.run`. Inside an atomic expression nothing is kept track of; an expression that
must be absent is made of characters. -/
def tried (total : Nat) (skip : List Char → List Char) : Peg → List Char → Attempts → Attempts
  | startOfInput, _, a => a
  | endOfInput, cs, a =>
    if cs.isEmpty then a else Attempts.track .endOfInput (total - cs.length) a a
  | literal _, _, a => a
  | any, _, a => a
  | absent _, _, a => a
  | seq e f, cs, a =>
    match run total skip e cs with
    | none => tried total skip e cs a
    | some (cs', _) => tried total skip f (skip cs') (tried total skip e cs a)
  | choice e f, cs, a =>
    match run total skip e cs with
    | none => tried total skip f cs (tried total skip e cs a)
    | some _ => tried total skip e cs a
  | optional e, cs, a => tried total skip e cs a
  | many e, cs, a =>
    match run total skip e cs with
    | none => tried total skip e cs a
    | some (cs', _) =>
      if cs'.length < cs.length then
        triedAgain (fun ds => run total skip e (skip ds)) (fun ds => tried total skip e (skip ds)) cs'
          (tried total skip e cs a)
      else tried total skip e cs a
  | atomic _, _, a => a
  | rule k e, cs, a =>
    match run total skip e cs with
    | none => Attempts.track k (total - cs.length) a (tried total skip e cs a)
    | some _ => tried total skip e cs a

/-! ## Reports -/

/-- Where each turn of a repetition starts and ends, as numbers of characters before. -/
def spans (total : Nat) (f : List Char → Option Match) (cs : List Char) : List (Nat × Nat) :=
  match f (skip cs) with
  | none => []
  | some (cs', _) =>
    let span := (total - (skip cs).length, total - cs'.length)
    if cs'.length < cs.length then span :: spans total f cs' else [span]
termination_by cs.length

end Peg

/-- The first definition, of those that trees amount to, whose name is taken: by the document or by an
earlier one. -/
def Document.firstDuplicate? (d : Document) : List (Tree × Nat × Nat) → Option (ParseError Nat)
  | [] => none
  | (t, start, stop) :: trees => do
    let definition ← t.definition
    if d.defines definition.name then some (.duplicate definition.name start stop)
    else (d.push definition).firstDuplicate? trees

/-- Why a text is no document, with places as numbers of characters before. -/
def Peg.error? (text : String) : Option (ParseError Nat) :=
  let cs := text.toList
  match run cs.length skip document cs with
  | none =>
    let a := tried cs.length skip document cs Attempts.initial
    some (.unexpected a.offset a.expected)
  | some (_, trees) =>
    Document.empty.firstDuplicate?
      (trees.zip (spans cs.length (run cs.length skip (choice graph morphism)) cs))

namespace Attempts

/-! ## Notes -/

/-- Takes in that a rule failed somewhere, whatever happened inside it. -/
def note (a : Attempts) (failed : Nat × Construct) : Attempts :=
  if failed.1 < a.offset then a
  else if failed.1 = a.offset then ⟨failed.1, a.constructs ++ [failed.2]⟩
  else ⟨failed.1, [failed.2]⟩

variable {construct : Construct} {offset : Nat} {a before after : Attempts}
  {failed : List (Nat × Construct)}

/-- A rule inside which nothing failed at its own start is noted by itself. -/
theorem track_eq_note (h : after = before ∨ offset < after.offset) :
    track construct offset before after = after.note (offset, construct) := by
  unfold track note
  rcases h with rfl | hlt
  · rw [if_neg (by omega)]
    split
    · rfl
    · split
      · rename_i heq
        rw [countAt, if_pos heq, List.take_length]
      · rfl
  · have hcount : after.countAt offset = 0 := by
      rw [countAt, if_neg (by omega)]
    rw [hcount, if_neg (by omega), if_pos hlt, if_pos hlt]

theorem le_offset_note {x : Nat × Construct} :
    a.offset ≤ (a.note x).offset ∧ x.1 ≤ (a.note x).offset := by
  unfold note
  split
  · omega
  · split
    · simp only
      omega
    · simp only
      omega

theorem offset_note_eq {x : Nat × Construct} :
    (a.note x).offset = a.offset ∨ (a.note x).offset = x.1 := by
  unfold note
  split
  · exact .inl rfl
  · split
    · exact .inr rfl
    · exact .inr rfl

/-- No note lies beyond the place that is kept. -/
theorem le_offset_foldl_note : a.offset ≤ (failed.foldl note a).offset ∧
    ∀ x ∈ failed, x.1 ≤ (failed.foldl note a).offset := by
  induction failed generalizing a with
  | nil => simp
  | cons x failed ih =>
    obtain ⟨ha, hx⟩ := le_offset_note (a := a) (x := x)
    obtain ⟨hle, hmem⟩ := ih (a := a.note x)
    rw [List.foldl_cons]
    refine ⟨Nat.le_trans ha hle, fun y hy => ?_⟩
    rcases List.mem_cons.mp hy with rfl | hy
    · exact Nat.le_trans hx hle
    · exact hmem y hy

/-- The place that is kept is that of a note, if it is not the one at the start. -/
theorem offset_foldl_note : (failed.foldl note a).offset = a.offset ∨
    ∃ x ∈ failed, x.1 = (failed.foldl note a).offset := by
  induction failed generalizing a with
  | nil => exact .inl rfl
  | cons x failed ih =>
    rw [List.foldl_cons]
    rcases ih (a := a.note x) with heq | ⟨y, hy, heq⟩
    · rcases offset_note_eq (a := a) (x := x) with hx | hx
      · exact .inl (heq.trans hx)
      · exact .inr ⟨x, List.mem_cons_self, (heq.trans hx).symm⟩
    · exact .inr ⟨y, List.mem_cons_of_mem x hy, heq⟩

/-- Kept are the notes at the place that is kept. -/
theorem mem_foldl_note_iff : construct ∈ (failed.foldl note a).constructs ↔
    ((failed.foldl note a).offset = a.offset ∧ construct ∈ a.constructs) ∨
      ((failed.foldl note a).offset, construct) ∈ failed := by
  induction failed generalizing a with
  | nil => simp
  | cons x failed ih =>
    obtain ⟨last, k⟩ := x
    rw [List.foldl_cons, ih, List.mem_cons, Prod.mk.injEq]
    have hle : (a.note (last, k)).offset ≤ (failed.foldl note (a.note (last, k))).offset :=
      le_offset_foldl_note.1
    generalize (failed.foldl note (a.note (last, k))).offset = final at hle
    unfold note at hle ⊢
    split
    · rename_i hlt
      rw [if_pos hlt] at hle
      have hne : final ≠ last := by omega
      simp [hne]
    · rename_i hlt
      rw [if_neg hlt] at hle
      split
      · rename_i heq
        simp only at heq
        subst heq
        simp only [List.mem_append, List.mem_singleton, and_or_left, or_assoc]
      · rename_i hne
        rw [if_neg hne] at hle
        have hne' : final ≠ a.offset := by
          simp only at hlt hne hle
          omega
        simp only [List.mem_singleton, hne', false_and, false_or]

end Attempts

end GraphHom
