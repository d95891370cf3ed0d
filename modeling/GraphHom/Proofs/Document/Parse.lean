import GraphHom.Document.Parse
import GraphHom.Proofs.Document.Agreement

/-!
# What texts denote

A text denotes a document (`Denotes`) if its tokens spell definitions, one after the other, whose names
are pairwise different, and the document lists these definitions, graphs and morphisms apart and in
order. Reading the text token by token answers what it denotes (`Document.parse_eq_ok_iff`); so does
matching it character by character (`Peg.parse_eq_some_iff`). In particular a text denotes at most one
document (`Denotes.unique`).
-/

namespace GraphHom

/-- The text spells definitions of pairwise different names, and the document is what they make. -/
def Denotes (text : String) (d : Document) : Prop :=
  ∃ ts ds, Tokenizes text.toList ts ∧ InTurn Spells ds ts ∧ (ds.map Definition.name).Nodup ∧
    d = Document.ofDefinitions ds

variable {text : String} {d d' : Document} {before ds : List Definition} {n : Name}
  {definition : Definition} {list : List PlacedDefinition} {t : Tree} {trees : List Tree}

theorem denotes_iff : Denotes text d ↔ ∃ ds, InTurn Spells ds (tokens text.toList) ∧
    (ds.map Definition.name).Nodup ∧ d = Document.ofDefinitions ds := by
  constructor
  · rintro ⟨ts, ds, hts, h⟩
    rw [tokenizes_iff.mp hts] at h
    exact ⟨ds, h⟩
  · rintro ⟨ds, h⟩
    exact ⟨_, ds, tokenizes_tokens _, h⟩

/-! ## Reading tokens -/

/-- Tokens are read as a document if they spell definitions of different names. -/
theorem Document.ofTokens_eq_ok_iff {ts : List Token} : Document.ofTokens ts = .ok d ↔
    ∃ ds, InTurn Spells ds ts ∧ (ds.map Definition.name).Nodup ∧ d = Document.ofDefinitions ds := by
  have hnodup : ∀ list : List PlacedDefinition,
      firstRepeat? (fun d : PlacedDefinition => d.definition.name) list = none ↔
        ((list.map PlacedDefinition.definition).map Definition.name).Nodup := by
    intro list
    rw [firstRepeat?_eq_none_iff, List.Nodup, List.pairwise_map, List.pairwise_map]
  rw [Document.ofTokens]
  constructor
  · intro h
    match hread : readDefinitions ts with
    | .error failures =>
      rw [hread] at h
      cases h
    | .ok list =>
      rw [hread] at h
      match hrepeat : firstRepeat? (fun d : PlacedDefinition => d.definition.name) list with
      | some d' =>
        simp only [hrepeat] at h
        cases h
      | none =>
        simp only [hrepeat] at h
        cases h
        exact ⟨_, readDefinitions_eq_ok_iff.mp ⟨list, hread, rfl⟩, (hnodup list).mp hrepeat, rfl⟩
  · rintro ⟨ds, hds, hdistinct, rfl⟩
    obtain ⟨list, hread, rfl⟩ := readDefinitions_eq_ok_iff.mpr hds
    simp only [hread, (hnodup list).mpr hdistinct]

/-- A text is read as what it denotes, and refused if it denotes nothing. -/
theorem Document.parse_eq_ok_iff : Document.parse text = .ok d ↔ Denotes text d := by
  have hparse : Document.parse text = (Document.ofTokens (tokens text.toList)).mapError
      (ParseError.map (Layout.ofText text).position) := rfl
  rw [hparse, denotes_iff, ← Document.ofTokens_eq_ok_iff]
  rcases Document.ofTokens (tokens text.toList) with error | d'
  · simp [Except.mapError]
  · simp [Except.mapError]

-- a keyword may be glued to the name that follows, and a comment may end with the text
example : Document.parse "(graphG(nodesx y));" = .ok ⟨[⟨⟨"G"⟩, [⟨"x"⟩, ⟨"y"⟩], []⟩], []⟩ := by cbv

/-- A text denotes at most one document. -/
theorem Denotes.unique (h : Denotes text d) (h' : Denotes text d') : d = d' := by
  rw [← Document.parse_eq_ok_iff] at h h'
  exact Except.ok.inj (h.symm.trans h')

/-! ## Matching characters -/

namespace Document

theorem defines_ofDefinitions :
    (ofDefinitions ds).defines n = true ↔ n ∈ ds.map Definition.name := by
  simp only [defines, ofDefinitions, Bool.or_eq_true, List.any_eq_true, List.mem_filterMap,
    decide_eq_true_eq, List.mem_map]
  constructor
  · rintro (⟨g, ⟨d, hd, hg⟩, rfl⟩ | ⟨m, ⟨d, hd, hm⟩, rfl⟩)
    · cases d with
      | graph g' => exact ⟨_, hd, congrArg GraphDef.name (Option.some.inj hg)⟩
      | morphism m => cases hg
    · cases d with
      | graph g => cases hm
      | morphism m' => exact ⟨_, hd, congrArg MorphismDef.name (Option.some.inj hm)⟩
  · rintro ⟨d, hd, rfl⟩
    cases d with
    | graph g => exact .inl ⟨g, ⟨_, hd, rfl⟩, rfl⟩
    | morphism m => exact .inr ⟨m, ⟨_, hd, rfl⟩, rfl⟩

theorem push_ofDefinitions :
    (ofDefinitions before).push definition = ofDefinitions (before ++ [definition]) := by
  cases definition with
  | graph g => simp [push, ofDefinitions]
  | morphism m => simp [push, ofDefinitions]

theorem pushTrees_cons (ht : t.definition = some definition) : d.pushTrees (t :: trees) =
    if d.defines definition.name then none else (d.push definition).pushTrees trees := by
  obtain ⟨construct, chars, children⟩ := t
  cases construct with
  | graph | morphism => simp only [pushTrees, ht, Option.bind_eq_bind, Option.bind_some]
  | _ => cases ht

theorem nodup_snoc : ((before ++ [definition]).map Definition.name).Nodup ↔
    (before.map Definition.name).Nodup ∧ definition.name ∉ before.map Definition.name := by
  rw [List.map_append, List.nodup_append]
  constructor
  · rintro ⟨hbefore, -, hdisjoint⟩
    exact ⟨hbefore, fun h => hdisjoint _ h _ List.mem_cons_self rfl⟩
  · rintro ⟨hbefore, hnew⟩
    refine ⟨hbefore, List.pairwise_singleton _ _, fun n hn n' hn' => ?_⟩
    rw [List.map_singleton, List.mem_singleton] at hn'
    rintro rfl
    exact hnew (hn' ▸ hn)

/-- Taking in the trees of definitions, after those taken in before. -/
theorem pushTrees_inTurn (before : List Definition) (h : InTurn Peg.Amounts list trees)
    (hbefore : (before.map Definition.name).Nodup) :
    (ofDefinitions before).pushTrees (trees ++ [.node .endOfInput [] []]) =
      if ((before ++ list.map PlacedDefinition.definition).map Definition.name).Nodup then
        some (ofDefinitions (before ++ list.map PlacedDefinition.definition))
      else none := by
  induction h generalizing before with
  | nil =>
    rw [List.map_nil, List.append_nil, if_pos hbefore]
    rfl
  | @cons d list _ ts hd _ ih =>
    obtain ⟨t, rfl, ht⟩ := hd
    have hassoc : before ++ (d :: list).map PlacedDefinition.definition =
        (before ++ [d.definition]) ++ list.map PlacedDefinition.definition := by
      rw [List.map_cons, List.append_assoc, List.singleton_append]
    rw [List.append_assoc, List.singleton_append, pushTrees_cons ht, push_ofDefinitions, hassoc]
    by_cases hd : d.definition.name ∈ before.map Definition.name
    · rw [if_pos (defines_ofDefinitions.mpr hd), if_neg]
      intro hnodup
      rw [List.map_append] at hnodup
      exact (nodup_snoc.mp (List.nodup_append.mp hnodup).1).2 hd
    · rw [if_neg (fun h => hd (defines_ofDefinitions.mp h)), ih _ (nodup_snoc.mpr ⟨hbefore, hd⟩)]

end Document

/-- Matching characters gives the document that is denoted, or none. -/
theorem Peg.parse_eq_some_iff : Peg.parse text = some d ↔ Denotes text d := by
  rw [Peg.parse, denotes_iff]
  rcases same_document text.toList with ⟨hx, hy⟩ | ⟨cs, ts, list, c, hx, hy, -, us, rfl, hus⟩
  · rw [hx]
    constructor
    · intro h
      cases h
    · rintro ⟨ds, hds, -⟩
      obtain ⟨list, hread, -⟩ := readDefinitions_eq_ok_iff.mpr hds
      obtain ⟨c, hc⟩ := readDefinitions_eq_ok.mp hread
      rw [hy] at hc
      cases hc
  · have hread : readDefinitions (tokens text.toList) = .ok list :=
      readDefinitions_eq_ok.mpr ⟨c, hy⟩
    have hpush : Document.empty.pushTrees (us ++ [.node .endOfInput [] []]) = _ :=
      Document.pushTrees_inTurn [] hus List.nodup_nil
    rw [hx, Option.bind_eq_bind, Option.bind_some]
    simp only [hpush, List.nil_append]
    constructor
    · intro h
      split at h
      · rename_i hnodup
        cases h
        exact ⟨_, readDefinitions_eq_ok_iff.mp ⟨list, hread, rfl⟩, hnodup, rfl⟩
      · cases h
    · rintro ⟨ds, hds, hnodup, rfl⟩
      obtain ⟨list', hread', rfl⟩ := readDefinitions_eq_ok_iff.mpr hds
      rw [hread, Except.ok.injEq] at hread'
      subst hread'
      rw [if_pos hnodup]

/-- **What a text is read as is what it denotes.** Reading its tokens answers the document that it
denotes, and fails if it denotes none; matching its characters does the same. -/
theorem Document.parse_ok_iff_denotes (text : String) (d : Document) :
    (Document.parse text = .ok d ↔ Denotes text d) ∧ (Peg.parse text = some d ↔ Denotes text d) :=
  ⟨Document.parse_eq_ok_iff, Peg.parse_eq_some_iff⟩

end GraphHom
