import GraphHom.Proofs.Constraint.First
import GraphHom.Proofs.Matching.Growing
import GraphHom.Proofs.Matching.Naming
import GraphHom.Proofs.StateSpace.First

/-!
# The first match

A matcher that looks for one match, or only asks whether there is one, leaves the search as soon as it
has a complete match. With either engine it then has what stands in front of all matches
(`MatcherConfig.firstPairs_eq`): the first solution of a constraint problem is the first of all
solutions, and the first match to be grown is the first of all that are grown (`head?_growMatches`).

`Matcher.exists_calls` says what the three calls for a pattern and a host do, whatever names the matcher
has left. Hence looking for a match answers the first match of the list of all matches, and there is
a match exactly if that list is not empty (`Matcher.firstMatch_eq_head?_allMatches`).
-/

namespace GraphHom

variable {pattern host : Graph} {injective : Bool}

/-! ## In front of all matches -/

theorem head?_growMatches {remembers : Bool} :
    (growMatches pattern host injective remembers).head? =
      growFirstMatch pattern host injective remembers := by
  unfold growMatches growFirstMatch
  by_cases hseeds : (seedPairings pattern host).isEmpty = true
  · rw [if_pos hseeds, if_pos hseeds, List.head?_nil]
  · obtain ⟨e, he⟩ := exists_allResults_growthStart pattern host injective remembers
    obtain ⟨e', he', -⟩ := Explorer.firstResult_of_allResults he
    rw [if_neg hseeds, if_neg hseeds, he, he']
    rfl

namespace MatcherConfig

/-- **Either engine finds first what stands in front of all.** -/
theorem firstPairs_eq (c : MatcherConfig) :
    c.firstPairs pattern host injective = (c.allPairs pattern host injective).map List.head? := by
  unfold firstPairs allPairs
  cases c.engine with
  | constraints =>
    cases formulate pattern host injective with
    | error e => rfl
    | ok p =>
      show Except.ok (p.solveOne.map MatchProblem.labelPairs) =
        .ok (p.solveAll.map MatchProblem.labelPairs).head?
      rw [List.head?_map, Problem.solveAll, Problem.solveOne, List.head?_map,
        Problem.head?_solutions]
  | growth =>
    show Except.ok ((growFirstMatch pattern host injective c.stateHashing).map LabelMap.pairs) =
      .ok ((growMatches pattern host injective c.stateHashing).map LabelMap.pairs).head?
    rw [List.head?_map, head?_growMatches]

/-- What is found can be named from any supply, and the names do not change it. -/
theorem exists_allPairs (c : MatcherConfig) (hne : pattern.isEmpty = false) (host : Graph)
    (injective : Bool) :
    ∃ l fs, c.allPairs pattern host injective = .ok l ∧ ∀ s : NameSupply, ∃ ms,
      s.morphisms pattern host l = (.ok ms, s.skip ms.length) ∧ s.HandsOut fs ms := by
  have hnamed : ∃ l ms, c.allPairs pattern host injective = .ok l ∧
      ((NameSupply.new "").morphisms pattern host l).1 = .ok ms := by
    cases hengine : c.engine with
    | constraints =>
      obtain ⟨l, hl, hnamed⟩ := exists_allPairs_constraints hengine pattern host injective
      obtain ⟨ms, hms, -⟩ := hnamed (.new "")
      exact ⟨l, ms, hl, hms⟩
    | growth =>
      obtain ⟨l, hl, hnamed⟩ := exists_allPairs_growth hengine hne host injective
      obtain ⟨ms, hms, -⟩ := hnamed (.new "")
      exact ⟨l, ms, hl, hms⟩
  obtain ⟨l, ms, hl, hms⟩ := hnamed
  exact ⟨l, ms.map Morphism.mapping, hl, NameSupply.exists_handsOut hms⟩

end MatcherConfig

/-! ## The matcher -/

namespace Matcher

variable {m : Matcher} {l : List (List (Name × Name))} {ms : List Morphism}

theorem withNames_names : m.withNames m.names = m := by
  unfold withNames names
  cases m.config.engine <;> rfl

theorem firstMatch_eq (hne : pattern.isEmpty = false)
    (hl : m.config.allPairs pattern host injective = .ok l)
    (hms : (m.names.morphisms pattern host l).1 = .ok ms) :
    m.firstMatch pattern host injective =
      (.ok ms.head?, m.withNames (m.names.skip ms.head?.toList.length)) := by
  rw [firstMatch, if_neg (by simp [hne]), MatcherConfig.firstPairs_eq, hl]
  cases l with
  | nil =>
    cases hms
    show (Except.ok none, m) = (Except.ok none, m.withNames m.names)
    rw [withNames_names]
  | cons pairs l =>
    -- the pairs in front are named as they are when all are named
    obtain ⟨first, rest, rfl, hfirst, -⟩ := NameSupply.of_morphisms_cons hms
    simp only [Except.map, List.head?_cons, NameSupply.morphism, hfirst]
    rfl

theorem existsMatch_eq (hne : pattern.isEmpty = false)
    (hl : m.config.allPairs pattern host injective = .ok l)
    (hms : (m.names.morphisms pattern host l).1 = .ok ms) :
    m.existsMatch pattern host injective = .ok ms.head?.isSome := by
  rw [existsMatch, if_neg (by simp [hne]), MatcherConfig.firstPairs_eq, hl]
  cases l with
  | nil =>
    cases hms
    rfl
  | cons pairs l =>
    obtain ⟨first, rest, rfl, -⟩ := NameSupply.of_morphisms_cons hms
    rfl

/-- **What a matcher does when it is asked for matches.** No call fails. The maps found depend on
nothing but the configuration; all of them are named, or the first one, or none. -/
theorem exists_calls (c : MatcherConfig) (pattern host : Graph) (injective : Bool) :
    ∃ fs, ∀ m : Matcher, m.config = c → ∃ ms, m.names.HandsOut fs ms ∧
      m.allMatches pattern host injective = (.ok ms, m.withNames (m.names.skip ms.length)) ∧
      m.firstMatch pattern host injective =
        (.ok ms.head?, m.withNames (m.names.skip ms.head?.toList.length)) ∧
      m.existsMatch pattern host injective = .ok ms.head?.isSome := by
  cases hempty : pattern.isEmpty with
  | true =>
    refine ⟨[], fun m _ => ⟨[], ⟨rfl, rfl⟩, ?_, ?_, ?_⟩⟩
    · rw [allMatches, if_pos hempty]
      exact congrArg _ withNames_names.symm
    · rw [firstMatch, if_pos hempty]
      exact congrArg _ withNames_names.symm
    · rw [existsMatch, if_pos hempty]
      rfl
  | false =>
    obtain ⟨l, fs, hl, hnamed⟩ := c.exists_allPairs hempty host injective
    refine ⟨fs, fun m hc => ?_⟩
    subst hc
    obtain ⟨ms, hms, hout⟩ := hnamed m.names
    have hok : (m.names.morphisms pattern host l).1 = .ok ms := congrArg Prod.fst hms
    refine ⟨ms, hout, ?_, firstMatch_eq hempty hl hok, existsMatch_eq hempty hl hok⟩
    rw [allMatches_eq hempty hl, hms]
    rfl

/-- **Looking for a match finds the first of all matches.** No call fails. With one configuration,
whatever names have been used up, there is a match exactly if the list of all matches is not empty;
looking for one finds nothing if the list is empty, and else a morphism with the map of the first
morphism in the list. -/
theorem firstMatch_eq_head?_allMatches {m m' : Matcher} (hconfig : m'.config = m.config)
    (pattern host : Graph) (injective : Bool) :
    ∃ ms first found, (m.allMatches pattern host injective).1 = .ok ms ∧
      m'.existsMatch pattern host injective = .ok found ∧ (found = true ↔ ms ≠ []) ∧
      (m'.firstMatch pattern host injective).1 = .ok first ∧ (first = none ↔ ms = []) ∧
      first.map Morphism.mapping = ms.head?.map Morphism.mapping := by
  obtain ⟨fs, hcalls⟩ := exists_calls m.config pattern host injective
  obtain ⟨ms, hout, hall, -, -⟩ := hcalls m rfl
  obtain ⟨ms', hout', -, hfirst, hexists⟩ := hcalls m' hconfig
  have hmappings : ms'.map Morphism.mapping = ms.map Morphism.mapping :=
    hout'.mappings_eq.trans hout.mappings_eq.symm
  have hnil : ms' = [] ↔ ms = [] := by
    rw [← List.map_eq_nil_iff (f := Morphism.mapping), hmappings, List.map_eq_nil_iff]
  refine ⟨ms, ms'.head?, ms'.head?.isSome, ?_, hexists, ?_, ?_, ?_, ?_⟩
  · rw [hall]
  · rw [Option.isSome_iff_ne_none, ne_eq, ne_eq, List.head?_eq_none_iff, hnil]
  · rw [hfirst]
  · rw [List.head?_eq_none_iff, hnil]
  · rw [← List.head?_map, hmappings, List.head?_map]

/-- An edge, in a host with a loop and a way out of it, sought with names used up before. -/
theorem firstMatch_eq_head?_allMatches_loop :
    ∃ pattern host, ∃ m m' : Matcher,
      Graph.ofEntries ⟨"P"⟩ [.edge ⟨⟨"x"⟩, ⟨"e"⟩, ⟨"y"⟩⟩] = .ok pattern ∧
      Graph.ofEntries ⟨"H"⟩ [.edge ⟨⟨"a"⟩, ⟨"1"⟩, ⟨"a"⟩⟩, .edge ⟨⟨"a"⟩, ⟨"2"⟩, ⟨"b"⟩⟩] = .ok host ∧
      m = Matcher.new ⟨.growth, false⟩ ∧ m' = ⟨m.config, .new "match", ⟨"match#", 3⟩⟩ ∧
      m'.config = m.config ∧
      ∃ ms first found, (m.allMatches pattern host true).1 = .ok ms ∧
        m'.existsMatch pattern host true = .ok found ∧ (found = true ↔ ms ≠ []) ∧
        (m'.firstMatch pattern host true).1 = .ok first ∧ (first = none ↔ ms = []) ∧
        first.map Morphism.mapping = ms.head?.map Morphism.mapping := by
  have hconfig : (Matcher.mk ⟨.growth, false⟩ (.new "match") ⟨"match#", 3⟩).config =
      (Matcher.new ⟨.growth, false⟩).config := rfl
  exact ⟨_, _, _, _, rfl, rfl, rfl, rfl, hconfig, firstMatch_eq_head?_allMatches hconfig _ _ _⟩

end Matcher

end GraphHom
