import GraphHom.Proofs.Document.Lockstep
import GraphHom.Proofs.Document.Parse

/-!
# Reports

The grammar of characters reports on every text what the grammar of tokens reports on the tokens of that
text, with places turned into numbers of characters (`Peg.error?_of_error`, `Peg.error?_of_ok`), and
`Document.parse` reports it in lines and columns (`Document.parse_eq_error_iff`).

So a report depends on the layout of the text only as far as the places go, and those fall on the same
tokens (`Document.parse_error_of_same_tokens`).
-/

namespace GraphHom

namespace Peg

open Reader

variable {c c' : Cursor} {text cs : List Char}

/-! ## Where definitions start and end -/

/-- Where a definition starts and ends, as numbers of characters before. -/
def spanIn (text : List Char) (d : PlacedDefinition) : Nat × Nat :=
  (offsetIn text ⟨d.opening, 0⟩, offsetIn text ⟨d.closing, 1⟩)

/-- A definition was read from an opening to a closing parenthesis of the text. -/
def Enclosed (text : List Char) (d : PlacedDefinition) : Prop :=
  (∃ cs, Stands text ⟨d.opening, 0⟩ cs) ∧ ∃ cs, Stands text ⟨d.closing, 0⟩ (')' :: cs)

theorem fromToken_closing {n : Nat} (h : Stands text ⟨n, 0⟩ (')' :: cs)) :
    fromToken n text = [')'] ++ cs := by
  obtain ⟨w, hw, hlen, -⟩ := h.exists_word
  rw [List.length_eq_zero_iff.mp hlen] at hw
  exact hw

/-- The turns of a repetition of definitions start and end where the definitions do that are read. -/
theorem spans_eq {e : Peg} {r : Reader PlacedDefinition} (h : Traces text e r (Spanned text))
    (hr : Shrinks r) (hc : Here text c (skip cs)) {list : List PlacedDefinition}
    (hlist : (Reader.many r c).outcome = some (list, c')) :
    spans text.length (run text.length skip e) cs = list.map (spanIn text) ∧
      ∀ d ∈ list, Enclosed text d := by
  induction hn : cs.length using Nat.strongRecOn generalizing cs c list with
  | _ n ih =>
    have hstep := h c (skip cs) hc
    match ho : (r c).outcome with
    | none =>
      rw [outcome_many, ho] at hlist
      cases hlist
      rw [spans, hstep.stops ho]
      exact ⟨rfl, by simp⟩
    | some (d, c₁) =>
      obtain ⟨cs₁, ts, hx, hhere, hplace, hclosing⟩ := hstep.goesOn d c₁ ho
      have hshort : c₁.rest.length < c.rest.length := hr c d c₁ ho
      have hlen : cs₁.length < cs.length := by
        refine length_lt_of_match hx ?_
        rwa [hhere.tokens_eq', hc.tokens_eq']
      rw [outcome_many, ho, Option.elim_some, if_pos hshort, Option.map_eq_some_iff] at hlist
      obtain ⟨⟨list', c''⟩, hlist', heq⟩ := hlist
      cases heq
      obtain ⟨hspans, hall⟩ := ih cs₁.length (hn ▸ hlen) hhere hlist' rfl
      have hopening := hc.stands
      rw [hplace] at hopening
      have hspan : (text.length - (skip cs).length, text.length - cs₁.length) = spanIn text d := by
        rw [spanIn, hopening.offsetIn_eq, offsetIn_eq (fromToken_closing hclosing) rfl]
      refine ⟨?_, fun d' hd' => ?_⟩
      · rw [spans, hx]
        simp only [if_pos hlen]
        rw [hspan, hspans, List.map_cons]
      · rcases List.mem_cons.mp hd' with rfl | hd'
        · exact ⟨⟨_, hopening⟩, _, hclosing⟩
        · exact hall d' hd'

/-- What is kept of all notes is what is reported of the failures. -/
theorem foldl_noted {failures : List Failure} (hne : failures ≠ [])
    (hplaces : ∀ x ∈ failures, ∃ ds, Stands text x.place ds) {a : Attempts}
    (ha : (failures.map (noted text)).foldl Attempts.note Attempts.initial = a) :
    a.offset = offsetIn text (furthest failures) ∧
      a.expected = expectedAt failures (furthest failures) := by
  obtain ⟨x, hx, hfurthest⟩ := exists_furthest hne
  obtain ⟨ds, hds⟩ := hplaces x hx
  rw [hfurthest] at hds
  have hbound : ∀ y ∈ failures.map (noted text), y.1 ≤ a.offset := ha ▸ Attempts.le_offset_foldl_note.2
  have hone : a.offset = Attempts.initial.offset ∨ ∃ y ∈ failures.map (noted text), y.1 = a.offset :=
    ha ▸ Attempts.offset_foldl_note
  have hmem : ∀ construct, construct ∈ a.constructs ↔
      (a.offset = Attempts.initial.offset ∧ construct ∈ Attempts.initial.constructs) ∨
        (a.offset, construct) ∈ failures.map (noted text) :=
    fun construct => ha ▸ Attempts.mem_foldl_note_iff
  have hoffset : a.offset = offsetIn text (furthest failures) := by
    refine Nat.le_antisymm ?_ ?_
    · rcases hone with hzero | ⟨y, hy, heq⟩
      · rw [hzero]
        exact Nat.zero_le _
      · obtain ⟨z, hz, rfl⟩ := List.mem_map.mp hy
        obtain ⟨es, hes⟩ := hplaces z hz
        rw [← heq]
        exact (hes.offsetIn_le_iff hds).mpr (le_furthest hz)
    · have hle := hbound (noted text x) (List.mem_map_of_mem hx)
      rw [noted, hfurthest] at hle
      exact hle
  refine ⟨hoffset, ?_⟩
  rw [Attempts.expected, expectedAt]
  refine List.filter_congr fun construct _ => decide_eq_decide.mpr ?_
  rw [hmem, hoffset]
  constructor
  · rintro (⟨-, hnil⟩ | hin)
    · cases hnil
    · obtain ⟨y, hy, heq⟩ := List.mem_map.mp hin
      obtain ⟨es, hes⟩ := hplaces y hy
      rw [noted, Prod.mk.injEq] at heq
      rw [← hes.eq_of_offsetIn_eq hds heq.1, ← heq.2]
      exact hy
  · intro hin
    exact .inr (List.mem_map.mpr ⟨_, hin, rfl⟩)

end Peg

/-- Taking in the trees of definitions stops at the first definition that repeats a name. -/
theorem Document.firstDuplicate?_inTurn {list : List PlacedDefinition} {trees : List Tree}
    (h : InTurn Peg.Amounts list trees) (span : PlacedDefinition → Nat × Nat)
    (before : List Definition) {seen : List Name}
    (hseen : ∀ n, n ∈ seen ↔ n ∈ before.map Definition.name) {last : List Tree} :
    (Document.ofDefinitions before).firstDuplicate? ((trees ++ last).zip (list.map span)) =
      (firstRepeatAfter? (fun d : PlacedDefinition => d.definition.name) seen list).map fun d =>
        .duplicate d.definition.name (span d).1 (span d).2 := by
  induction h generalizing before seen with
  | nil =>
    rw [List.map_nil, List.zip_nil_right]
    rfl
  | @cons d list _ ts hd _ ih =>
    obtain ⟨t, rfl, ht⟩ := hd
    have hzip : (([t] ++ ts) ++ last).zip ((d :: list).map span) =
        (t, span d) :: (ts ++ last).zip (list.map span) := rfl
    rw [hzip]
    simp only [Document.firstDuplicate?, ht, Option.bind_eq_bind, Option.bind_some, firstRepeatAfter?]
    by_cases hname : d.definition.name ∈ before.map Definition.name
    · rw [if_pos (Document.defines_ofDefinitions.mpr hname), if_pos ((hseen _).mpr hname),
        Option.map_some]
    · rw [if_neg (fun h => hname (Document.defines_ofDefinitions.mp h)),
        if_neg (fun h => hname ((hseen _).mp h)), Document.push_ofDefinitions]
      refine ih (before ++ [d.definition]) fun n => ?_
      rw [List.mem_cons, hseen, List.map_append, List.mem_append, List.map_singleton,
        List.mem_singleton, or_comm]

/-! ## What is reported -/

/-- The places of a report are places of the text: that of what is missing, or those of a definition and of
the end of its closing parenthesis. -/
inductive Located (text : List Char) : ParseError Place → Prop
  /-- Something is missing at a place. -/
  | unexpected {p : Place} {expected : List Construct} {cs : List Char} (h : Stands text p cs) :
      Located text (.unexpected p expected)
  /-- A definition repeats a name. -/
  | duplicate {d : PlacedDefinition} (h : Peg.Enclosed text d) :
      Located text (.duplicate d.definition.name ⟨d.opening, 0⟩ ⟨d.closing, 1⟩)

namespace Peg

variable {text : String} {e : ParseError Place} {list : List PlacedDefinition}

theorem here_start (cs : List Char) : Here cs ⟨Place.first, tokens cs⟩ (skip cs) :=
  ⟨Stands.start, tokens_skip⟩

/-- Where tokens do not spell definitions, the characters are not matched, and what is reported is the
furthest failure. -/
theorem error?_of_unread {failures : List Failure}
    (h : readDefinitions (tokens text.toList) = .error failures) :
    error? text = some (.unexpected (offsetIn text.toList (furthest failures))
      (expectedAt failures (furthest failures))) ∧
      ∃ cs, Stands text.toList (furthest failures) cs := by
  have hread := readDefinitions_eq_error.mp h
  have hstep := traces_definitions _ _ (here_start text.toList)
  have hfailures : (Grammar.definitions ⟨Place.first, tokens text.toList⟩).failures = failures := by
    rw [hread]
  have hne : failures ≠ [] := by
    obtain ⟨-, c', -, hmem⟩ := Grammar.failures_definitions (by rw [hread])
    rw [hread] at hmem
    exact List.ne_nil_of_mem hmem
  have hplaces : ∀ x ∈ failures, ∃ ds, Stands text.toList x.place ds := by
    intro x hx
    rw [← hfailures] at hx
    obtain ⟨ds, hds, -⟩ := hstep.places x hx
    exact ⟨ds, hds⟩
  have hrun : run text.toList.length skip document text.toList = none := by
    rcases same_document text.toList with ⟨hx, -⟩ | ⟨_, _, _, _, -, hy, -⟩
    · exact hx
    · rw [hread] at hy
      cases hy
  have htried : tried text.toList.length skip document text.toList Attempts.initial =
      (failures.map (noted text.toList)).foldl Attempts.note Attempts.initial := by
    rw [document, tried, run, if_pos rfl, ← hfailures]
    exact hstep.tried _
  obtain ⟨hoffset, hexpected⟩ := foldl_noted hne hplaces htried.symm
  obtain ⟨x, hx, hfurthest⟩ := exists_furthest hne
  refine ⟨?_, hfurthest ▸ hplaces x hx⟩
  simp only [error?, hrun]
  rw [hoffset, hexpected]

/-- Where tokens spell definitions, what is reported is the first definition that repeats a name. -/
theorem error?_of_read (h : readDefinitions (tokens text.toList) = .ok list) :
    error? text = (firstRepeat? (fun d : PlacedDefinition => d.definition.name) list).map (fun d =>
      .duplicate d.definition.name (offsetIn text.toList ⟨d.opening, 0⟩)
        (offsetIn text.toList ⟨d.closing, 1⟩)) ∧ ∀ d ∈ list, Enclosed text.toList d := by
  obtain ⟨c, hread⟩ := readDefinitions_eq_ok.mp h
  obtain ⟨c', hmany⟩ := Grammar.outcome_definitions hread
  obtain ⟨hspans, hall⟩ := spans_eq traces_definition Grammar.shrinks_definition (here_start _) hmany
  refine ⟨?_, hall⟩
  rcases same_document text.toList with ⟨-, hy⟩ | ⟨cs, ts, list', c'', hx, hy, -, us, rfl, hus⟩
  · rw [hread] at hy
    cases hy
  · rw [hread] at hy
    cases hy
    simp only [error?, hx, hspans]
    exact Document.firstDuplicate?_inTurn hus (spanIn text.toList) [] (by simp)

/-- The characters of a text are refused for the reason for which its tokens are. -/
theorem error?_of_error (h : Document.ofTokens (tokens text.toList) = .error e) :
    error? text = some (e.map (offsetIn text.toList)) ∧ Located text.toList e := by
  rw [Document.ofTokens] at h
  rcases hread : readDefinitions (tokens text.toList) with failures | list
  · obtain ⟨herror, cs, hcs⟩ := error?_of_unread hread
    rw [hread] at h
    cases h
    exact ⟨herror, .unexpected hcs⟩
  · obtain ⟨herror, hall⟩ := error?_of_read hread
    rw [hread] at h
    simp only at h
    rcases hrepeat : firstRepeat? (fun d : PlacedDefinition => d.definition.name) list with _ | d
    · rw [hrepeat] at h
      cases h
    · rw [hrepeat] at h herror
      cases h
      exact ⟨herror, .duplicate (hall d (mem_of_firstRepeatAfter? hrepeat))⟩

theorem error?_of_ok {d : Document} (h : Document.ofTokens (tokens text.toList) = .ok d) :
    error? text = none := by
  rw [Document.ofTokens] at h
  rcases hread : readDefinitions (tokens text.toList) with failures | list
  · rw [hread] at h
    cases h
  · rw [hread] at h
    simp only at h
    rcases hrepeat : firstRepeat? (fun d : PlacedDefinition => d.definition.name) list with _ | d
    · rw [(error?_of_read hread).1, hrepeat, Option.map_none]
    · rw [hrepeat] at h
      cases h

end Peg

namespace Document

variable {text text' : String} {e : ParseError Place} {report : ParseError Position}

theorem parse_eq : parse text = (ofTokens (tokens text.toList)).mapError
    (ParseError.map (Layout.ofText text).position) := rfl

/-- Lines and columns of a report are those of its numbers of characters. -/
theorem map_position (h : Located text.toList e) :
    e.map (Layout.ofText text).position =
      (e.map (offsetIn text.toList)).map (positionAt text) := by
  cases h with
  | unexpected h => simp only [ParseError.map, h.position_eq]
  | duplicate h =>
    obtain ⟨⟨cs, hopening⟩, cs', hclosing⟩ := h
    have hstop := position_ofText (p := ⟨_, 1⟩) (Peg.fromToken_closing hclosing) rfl (by decide)
    simp only [ParseError.map, hopening.position_eq, hstop]

end Document

/-- The text is refused with `report`, and `r` says the same with numbers of characters: matching the
characters of the text reports it. -/
structure Refused (text : String) (report : ParseError Position) (r : ParseError Nat) : Prop where
  /-- Reading answers the report. -/
  parse_eq : Document.parse text = .error report
  /-- Matching characters reports the same. -/
  error?_eq : Peg.error? text = some r
  /-- Lines and columns are those of the characters before. -/
  report_eq : report = r.map (positionAt text)

namespace Document

variable {text : String} {e : ParseError Place} {report : ParseError Position}

/-- What is reported of the tokens is reported of the text. -/
theorem refused_of_error (h : ofTokens (tokens text.toList) = .error e) :
    Refused text (e.map (Layout.ofText text).position) (e.map (offsetIn text.toList)) ∧
      Located text.toList e := by
  obtain ⟨herror, hlocated⟩ := Peg.error?_of_error h
  refine ⟨⟨?_, herror, map_position hlocated⟩, hlocated⟩
  rw [parse_eq, h]
  rfl

/-- **Why a text is refused.** Reading its tokens reports what is tried in vain furthest into the text when
its characters are matched, or the first definition that repeats a name; lines and columns are those of the
characters before. -/
theorem parse_eq_error_iff : parse text = .error report ↔
    ∃ r, Peg.error? text = some r ∧ report = r.map (positionAt text) := by
  rcases hread : ofTokens (tokens text.toList) with e | d
  · obtain ⟨hparse, herror, heq⟩ := (refused_of_error hread).1
    rw [hparse, herror, heq]
    simp [eq_comm]
  · rw [parse_eq, hread, Peg.error?_of_ok hread]
    simp [Except.mapError]

end Document

/-! ## Texts with the same tokens -/

/-- Reports about two texts that say the same of the same places: what is missing, at the same offset inside
the same token or at both ends; or which name is repeated, by a definition that starts on the same token and
ends just after the same token. -/
inductive SameReport (text text' : List Char) : ParseError Nat → ParseError Nat → Prop
  /-- The same is missing. -/
  | unexpected {p : Place} {n n' : Nat} {expected : List Construct} (h : FallsOn text p n)
      (h' : FallsOn text' p n') : SameReport text text' (.unexpected n expected) (.unexpected n' expected)
  /-- The same definition repeats a name. -/
  | duplicate {p q : Place} {start start' last last' : Nat} {name : Name} (hstart : FallsOn text p start)
      (hstart' : FallsOn text' p start') (hlast : FallsOn text q last) (hlast' : FallsOn text' q last') :
      SameReport text text' (.duplicate name start (last + 1)) (.duplicate name start' (last' + 1))

/-- The end of a definition lies just after its closing parenthesis. -/
theorem Peg.Enclosed.stop {text : List Char} {d : PlacedDefinition} (h : Peg.Enclosed text d) :
    ∃ last, FallsOn text ⟨d.closing, 0⟩ last ∧ offsetIn text ⟨d.closing, 1⟩ = last + 1 := by
  obtain ⟨-, cs, hclosing⟩ := h
  have hlen := hclosing.suffix.length_le
  rw [List.length_cons] at hlen
  refine ⟨_, hclosing.fallsOn, ?_⟩
  rw [hclosing.offsetIn_eq, offsetIn_eq (Peg.fromToken_closing hclosing) rfl, List.length_cons]
  omega

theorem Located.sameReport {text text' : List Char} {e : ParseError Place} (h : Located text e)
    (h' : Located text' e) :
    SameReport text text' (e.map (offsetIn text)) (e.map (offsetIn text')) := by
  cases h with
  | unexpected hstands =>
    cases h' with
    | unexpected hstands' => exact .unexpected hstands.fallsOn hstands'.fallsOn
  | @duplicate d hd =>
    have hd' : Peg.Enclosed text' d := by
      generalize hname : d.definition.name = name at h'
      generalize hstart : (⟨d.opening, 0⟩ : Place) = start at h'
      generalize hstop : (⟨d.closing, 1⟩ : Place) = stop at h'
      cases h' with
      | @duplicate d' hd' =>
        obtain ⟨hopening, -⟩ := Place.mk.inj hstart
        obtain ⟨hclosing, -⟩ := Place.mk.inj hstop
        rw [Peg.Enclosed, hopening, hclosing]
        exact hd'
    obtain ⟨last, hlast, hstop⟩ := hd.stop
    obtain ⟨last', hlast', hstop'⟩ := hd'.stop
    obtain ⟨⟨cs, hcs⟩, -⟩ := hd
    obtain ⟨⟨cs', hcs'⟩, -⟩ := hd'
    rw [ParseError.map, ParseError.map, hstop, hstop']
    exact .duplicate hcs.fallsOn hcs'.fallsOn hlast hlast'

/-- **Layout does not matter.** Of two texts with the same tokens, if one is refused, so is the other, with
the same message and at the same place among the tokens. -/
theorem Document.parse_error_of_same_tokens {text text' : String} {ts : List Token}
    {report : ParseError Position} (hts : Tokenizes text.toList ts) (hts' : Tokenizes text'.toList ts)
    (h : Document.parse text = .error report) : ∃ r report' r', Refused text report r ∧
      Refused text' report' r' ∧ report'.message = report.message ∧
      SameReport text.toList text'.toList r r' := by
  rw [parse_eq, ← tokenizes_iff.mp hts] at h
  rcases hread : ofTokens ts with e | d
  · rw [hread] at h
    cases h
    obtain ⟨hrefused, hlocated⟩ := refused_of_error (tokenizes_iff.mp hts ▸ hread)
    obtain ⟨hrefused', hlocated'⟩ := refused_of_error (tokenizes_iff.mp hts' ▸ hread)
    have hmessage : ∀ (f g : Place → Position), (e.map f).message = (e.map g).message := by
      intro f g
      cases e <;> rfl
    exact ⟨_, _, _, hrefused, hrefused', hmessage _ _, hlocated.sameReport hlocated'⟩
  · rw [hread] at h
    cases h

/-- Two layouts of four tokens: an edge is missing inside the last one, after the keyword. -/
theorem Document.parse_error_of_same_tokens_glued :
    Document.parse "(graphG(edgesx" = .error (.unexpected ⟨1, 14⟩ [.edge]) ∧
      ∃ r report' r', Refused "(graphG(edgesx" (.unexpected ⟨1, 14⟩ [.edge]) r ∧
        Refused "; G\n( graphG ;(\n\t(edgesx ; (a 1 b)" report' r' ∧
        report'.message = "expected edge" ∧
        SameReport "(graphG(edgesx".toList "; G\n( graphG ;(\n\t(edgesx ; (a 1 b)".toList r r' := by
  have hparse : Document.parse "(graphG(edgesx" = .error (.unexpected ⟨1, 14⟩ [.edge]) := by
    decide +kernel
  have hts : tokens "(graphG(edgesx".toList =
      [.opening, .word "graphG".toList, .opening, .word "edgesx".toList] := by decide +kernel
  have hts' : tokens "; G\n( graphG ;(\n\t(edgesx ; (a 1 b)".toList =
      [.opening, .word "graphG".toList, .opening, .word "edgesx".toList] := by decide +kernel
  exact ⟨hparse, Document.parse_error_of_same_tokens (tokenizes_iff.mpr hts.symm)
    (tokenizes_iff.mpr hts'.symm) hparse⟩

end GraphHom
