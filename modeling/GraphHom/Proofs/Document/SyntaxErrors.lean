import GraphHom.Proofs.Document.Reports
import GraphHom.Proofs.Document.Viability

/-!
# Syntax errors

A syntax error is reported where the text stops being the beginning of a document: never before the end of
the definitions that the text starts with (`Grammar.leading_le_furthest`), and never so late that what stands before
could not be continued (`Document.parse_unexpected`). Failures on paths that were given up count as well,
so this is shown of every failure.
-/

namespace GraphHom

open Reader

variable {ds : List Definition} {part rest ts : List Token} {failures : List Failure}

namespace Grammar

/-- A repetition of definitions leaves out none of the definitions that come first. -/
theorem length_rest_le (h : InTurn Spells ds part) {place : Place} {list : List PlacedDefinition}
    {c' : Cursor} (ho : (many (either graph morphism) ⟨place, part ++ rest⟩).outcome = some (list, c')) :
    c'.rest.length ≤ rest.length := by
  have hmany := reads_definition.many fun _ _ (h : Spells _ _) => h.ne_nil
  induction h generalizing place list with
  | nil =>
    obtain ⟨⟨part, -, hrest⟩, -⟩ := hmany.of_outcome ho
    have hsuffix : c'.rest <:+ rest := ⟨part, hrest.symm⟩
    exact hsuffix.length_le
  | @cons d ds p q hd _ ih =>
    obtain ⟨a, place', ha, -⟩ :=
      (reads_definition place (p ++ (q ++ rest)) d (q ++ rest)).mpr ⟨p, hd, rfl⟩
    have hshort := shrinks_definition _ _ _ ha
    rw [List.append_assoc, outcome_many, ha, Option.elim_some, if_pos hshort,
      Option.map_eq_some_iff] at ho
    obtain ⟨⟨list', c''⟩, ho', heq⟩ := ho
    cases heq
    exact ih ho'

/-- Tokens are refused nowhere before the end of the definitions that come first. -/
theorem leading_le_furthest (hread : readDefinitions (part ++ rest) = .error failures)
    (h : InTurn Spells ds part) : ⟨part.length, 0⟩ ≤ furthest failures := by
  have hfail := readDefinitions_eq_error.mp hread
  obtain ⟨list, c', hmany, hmem⟩ := failures_definitions (c := ⟨Place.first, part ++ rest⟩) (by rw [hfail])
  rw [hfail] at hmem
  obtain ⟨read, -, hpasses⟩ := (keepsTo_graph.either keepsTo_morphism).many.passes _ _ _ hmany
  obtain ⟨hend, hsplit⟩ := hpasses.place_eq rfl
  have hlen := congrArg List.length hsplit
  rw [List.length_append, List.length_append] at hlen
  have hleading := length_rest_le h hmany
  refine Place.le_trans ?_ (le_furthest hmem)
  rw [Place.le_def, hend, Place.first]
  simp only
  omega

end Grammar

namespace Document

variable {text : String}

/-- A text whose tokens are those of definitions has no syntax error. -/
theorem parse_ne_unexpected (h : InTurn Spells ds (tokens text.toList)) (place : Position)
    (expected : List Construct) : parse text ≠ .error (.unexpected place expected) := by
  obtain ⟨list, hread, -⟩ := readDefinitions_eq_ok_iff.mpr h
  intro hparse
  rw [parse_eq, ofTokens, hread] at hparse
  simp only at hparse
  rcases hrepeat : firstRepeat? (fun d : PlacedDefinition => d.definition.name) list with _ | d
  · rw [hrepeat] at hparse
    cases hparse
  · rw [hrepeat] at hparse
    cases hparse

/-- If a text has a syntax error, it is that of the failures of reading its tokens. -/
theorem readDefinitions_of_parse_unexpected {place : Position} {expected : List Construct}
    (h : parse text = .error (.unexpected place expected)) :
    ∃ failures, readDefinitions (tokens text.toList) = .error failures ∧
      place = positionAt text (offsetIn text.toList (furthest failures)) ∧
      expected = expectedAt failures (furthest failures) := by
  rcases hread : readDefinitions (tokens text.toList) with failures | list
  · obtain ⟨r, hr, heq⟩ := parse_eq_error_iff.mp h
    rw [(Peg.error?_of_unread hread).1, Option.some.injEq] at hr
    rw [← hr, ParseError.map, ParseError.unexpected.injEq] at heq
    exact ⟨failures, rfl, heq.1, heq.2⟩
  · exact absurd h (parse_ne_unexpected (readDefinitions_eq_ok_iff.mp ⟨list, hread, rfl⟩) _ _)

end Document

/-- After `n` characters the text stops being the beginning of a document, and the constructs of `expected`
could have stood there. -/
structure StopsAt (text : String) (n : Nat) (expected : List Construct) : Prop where
  /-- Something is expected. -/
  expected_ne_nil : expected ≠ []
  /-- The place lies in the text. -/
  le_length : n ≤ text.toList.length
  /-- The place is at or after the first token that follows the definitions with which the text starts,
  however many of them are taken. -/
  after_leading : ∀ ds part rest, Tokenizes text.toList (part ++ rest) → InTurn Spells ds part →
    ∃ m ≤ n, FallsOn text.toList ⟨part.length, 0⟩ m
  /-- The text before can be continued to one without a syntax error. -/
  continuable : ∃ suffix, ∀ place expected,
    Document.parse (String.ofList (text.toList.take n ++ suffix)) ≠ .error (.unexpected place expected)

/-- **Where a syntax error is reported.** Something is expected there; it is not before the first token
after the definitions with which the text starts; and the text before can be continued. -/
theorem Document.parse_unexpected {text : String} {place : Position} {expected : List Construct}
    (h : Document.parse text = .error (.unexpected place expected)) :
    ∃ n, Refused text (.unexpected place expected) (.unexpected n expected) ∧ StopsAt text n expected := by
  obtain ⟨failures, hread, rfl, rfl⟩ := readDefinitions_of_parse_unexpected h
  have hfail := readDefinitions_eq_error.mp hread
  obtain ⟨herror, cs, hcs⟩ := Peg.error?_of_unread hread
  obtain ⟨-, c', -, hmem⟩ := Grammar.failures_definitions (by rw [hfail])
  rw [hfail] at hmem
  obtain ⟨x, hx, hfurthest⟩ := exists_furthest (List.ne_nil_of_mem hmem)
  refine ⟨_, ⟨h, herror, rfl⟩, ?_, Nat.sub_le _ _, fun ds part rest hts hpart => ?_, ?_⟩
  · refine List.ne_nil_of_mem (a := x.construct) (mem_expectedAt_iff.mpr ?_)
    rw [← hfurthest]
    exact hx
  · have hsplit := tokenizes_iff.mp hts
    have hle : ⟨part.length, 0⟩ ≤ furthest failures :=
      Grammar.leading_le_furthest (hsplit ▸ hread) hpart
    have hleading : Stands text.toList ⟨part.length, 0⟩ (fromToken part.length text.toList) := by
      refine ⟨⟨[], rfl, rfl, by simp, by simp⟩, ?_⟩
      rw [tokens_fromToken, ← hsplit, List.drop_left, List.length_append]
    exact ⟨_, (hleading.offsetIn_le_iff hcs).mpr hle, hleading.fallsOn⟩
  · -- a line feed ends the word or the comment in which the text may stop
    have hmem' : x ∈ (Grammar.definitions ⟨Place.first, tokens text.toList⟩).failures := by
      rw [hfail]
      exact hx
    obtain ⟨ds, more, ⟨back, rfl⟩, hds⟩ := Grammar.exists_continuation hmem'
    rw [hfurthest, ← hcs.tokens_take, ← tokens_append_newline] at hds
    exact ⟨'\n' :: back, parse_ne_unexpected (by rw [String.toList_ofList]; exact hds)⟩

/-- After a definition and a comment, an edge is missing inside a word that starts with a keyword. -/
theorem Document.parse_unexpected_glued :
    Document.parse "(graph A) ; one\n(graphG(edgesx" = .error (.unexpected ⟨2, 14⟩ [.edge]) ∧
      ∃ n, Refused "(graph A) ; one\n(graphG(edgesx" (.unexpected ⟨2, 14⟩ [.edge])
          (.unexpected n [.edge]) ∧
        StopsAt "(graph A) ; one\n(graphG(edgesx" n [.edge] := by
  have hparse : Document.parse "(graph A) ; one\n(graphG(edgesx" =
      .error (.unexpected ⟨2, 14⟩ [.edge]) := by decide +kernel
  exact ⟨hparse, Document.parse_unexpected hparse⟩

end GraphHom
