import GraphHom.Proofs.Matching.First
import GraphHom.Proofs.StateSpace.Reach
import GraphHom.Proofs.StateSpace.Stack

/-!
# Growing with and without memory

The elements of a pattern can be matched in many orders, and several of them lead to one partial match.
A growth that remembers grows each only once. It goes by what is unmatched and how labels are bound; what
is used and what is offered next need not be compared, for they are the same then
(`eq_of_reaches_growthStart`).

So memory cuts off nothing but repetitions of what has been grown before, in the same order. The loop
with its stack comes to an end either way (`exists_run_growMatches`, `exists_run_growFirstMatch`), and
the matches and the first match are the same (`growMatches_memory_irrel`).
-/

namespace GraphHom

open PartialMatch

variable {pattern host : Graph} {injective : Bool} {offer offer' : Offer PartialMatch Pairing}

/-! ## What is remembered of a partial match -/

/-- **A key says all about a partial match** that has been grown: its state, and what is offered in it.
This goes for the start too, though the first choices are others. -/
theorem eq_of_reaches_growthStart (h : space.Reaches (growthStart pattern host injective) offer)
    (h' : space.Reaches (growthStart pattern host injective) offer')
    (hkey : space.key offer.state = space.key offer'.state) : offer = offer' := by
  have hmet : Met pattern host injective offer := keysDecide_met.of_reaches (.inl rfl) h
  have hmet' : Met pattern host injective offer' := keysDecide_met.of_reaches (.inl rfl) h'
  exact hmet.eq_of_key hmet' hkey

/-- An admissible pairing that is offered leads on. -/
theorem reaches_pair {start offer : Offer PartialMatch Pairing} {p : Pairing}
    (h : space.Reaches start offer) (hmem : p ∈ offer.choices)
    (hp : offer.state.canApply p = true) : space.Reaches start (offer.state.pair p).below := by
  have hadmissible : offer.state.Admissible p := canApply_iff.mp hp
  refine h.tail ⟨fun hdone => ?_, mem_successors_iff.mpr ⟨p, hmem, hadmissible, rfl⟩⟩
  exact List.ne_nil_of_mem hadmissible.unmatched (isDone_iff.mp hdone)

/-! ## The loop of a growth -/

/-- The loop comes to an end, and the matches are what it has found, where it found them first. -/
theorem exists_run_growMatches (hseeds : seedPairings pattern host ≠ []) (injective remembers : Bool) :
    ∃ looks w, Pending.run space false looks
        ((Explorer.new remembers).pending (growthStart pattern host injective)) = some w ∧
      growMatches pattern host injective remembers = w.found.reverse.eraseDups := by
  obtain ⟨e, he⟩ := exists_allResults_growthStart pattern host injective remembers
  obtain ⟨looks, w, hrun, hfound, -⟩ := Explorer.allResults_iff_run.mp ⟨_, he⟩
  refine ⟨looks, w, hrun, ?_⟩
  rw [growMatches_eq hseeds, hfound, distinct_eq_eraseDups]

/-- The loop that is broken off with the first match comes to an end too. -/
theorem exists_run_growFirstMatch (hseeds : seedPairings pattern host ≠ [])
    (injective remembers : Bool) :
    ∃ looks w, Pending.run space true looks
        ((Explorer.new remembers).pending (growthStart pattern host injective)) = some w ∧
      growFirstMatch pattern host injective remembers = w.found.head? := by
  obtain ⟨e, he⟩ := exists_allResults_growthStart pattern host injective remembers
  obtain ⟨e', he', -⟩ := Explorer.firstResult_of_allResults he
  obtain ⟨looks, w, hrun, hhead, -⟩ := Explorer.firstResult_iff_run.mp ⟨_, he'⟩
  refine ⟨looks, w, hrun, ?_⟩
  rw [← hhead, growFirstMatch, if_neg fun hnil => hseeds (List.isEmpty_iff.mp hnil), he']
  rfl

/-! ## Memory makes no difference -/

/-- With memory and without, the same matches are grown in the same order. -/
theorem growMatches_congr (remembers remembers' : Bool) :
    growMatches pattern host injective remembers = growMatches pattern host injective remembers' := by
  by_cases hseeds : seedPairings pattern host = []
  · rw [growMatches_of_seedPairings_eq_nil hseeds, growMatches_of_seedPairings_eq_nil hseeds]
  · rw [growMatches_eq hseeds, growMatches_eq hseeds]

/-- **Memory makes no difference to what is grown.** With it and without, growing lists the same matches
in the same order, and finds the same first match. Either way these are what the loop has found when it
ends. What memory compares determines everything that can be reached. -/
theorem growMatches_memory_irrel (pattern host : Graph) (injective : Bool) :
    growMatches pattern host injective true = growMatches pattern host injective false ∧
    growFirstMatch pattern host injective true = growFirstMatch pattern host injective false ∧
    (seedPairings pattern host ≠ [] → ∀ remembers,
      (∃ looks w, Pending.run space false looks
          ((Explorer.new remembers).pending (growthStart pattern host injective)) = some w ∧
        growMatches pattern host injective remembers = w.found.reverse.eraseDups) ∧
      ∃ looks w, Pending.run space true looks
          ((Explorer.new remembers).pending (growthStart pattern host injective)) = some w ∧
        growFirstMatch pattern host injective remembers = w.found.head?) ∧
    ∀ offer offer', space.Reaches (growthStart pattern host injective) offer →
      space.Reaches (growthStart pattern host injective) offer' →
      space.key offer.state = space.key offer'.state → offer = offer' := by
  refine ⟨growMatches_congr true false, ?_, fun hseeds remembers => ⟨?_, ?_⟩, fun _ _ => ?_⟩
  · rw [← head?_growMatches, ← head?_growMatches, growMatches_congr true false]
  · exact exists_run_growMatches hseeds injective remembers
  · exact exists_run_growFirstMatch hseeds injective remembers
  · exact eq_of_reaches_growthStart

/-- Of three edges between two nodes, the second and the third can be matched in either order. -/
theorem growMatches_memory_irrel_parallel :
    ∃ pattern host offer offer',
      Graph.ofEntries ⟨"P"⟩ [.edge ⟨⟨"x"⟩, ⟨"e"⟩, ⟨"y"⟩⟩, .edge ⟨⟨"x"⟩, ⟨"f"⟩, ⟨"y"⟩⟩,
        .edge ⟨⟨"x"⟩, ⟨"g"⟩, ⟨"y"⟩⟩] = .ok pattern ∧
      Graph.ofEntries ⟨"H"⟩ [.edge ⟨⟨"u"⟩, ⟨"1"⟩, ⟨"v"⟩⟩, .edge ⟨⟨"u"⟩, ⟨"2"⟩, ⟨"v"⟩⟩,
        .edge ⟨⟨"u"⟩, ⟨"3"⟩, ⟨"v"⟩⟩] = .ok host ∧
      seedPairings pattern host ≠ [] ∧
      offer = ((((PartialMatch.start pattern host true).pair
        ⟨⟨⟨"x"⟩, ⟨"e"⟩, ⟨"y"⟩⟩, ⟨⟨"u"⟩, ⟨"1"⟩, ⟨"v"⟩⟩⟩).pair
        ⟨⟨⟨"x"⟩, ⟨"f"⟩, ⟨"y"⟩⟩, ⟨⟨"u"⟩, ⟨"2"⟩, ⟨"v"⟩⟩⟩).pair
        ⟨⟨⟨"x"⟩, ⟨"g"⟩, ⟨"y"⟩⟩, ⟨⟨"u"⟩, ⟨"3"⟩, ⟨"v"⟩⟩⟩).below ∧
      offer' = ((((PartialMatch.start pattern host true).pair
        ⟨⟨⟨"x"⟩, ⟨"e"⟩, ⟨"y"⟩⟩, ⟨⟨"u"⟩, ⟨"1"⟩, ⟨"v"⟩⟩⟩).pair
        ⟨⟨⟨"x"⟩, ⟨"g"⟩, ⟨"y"⟩⟩, ⟨⟨"u"⟩, ⟨"3"⟩, ⟨"v"⟩⟩⟩).pair
        ⟨⟨⟨"x"⟩, ⟨"f"⟩, ⟨"y"⟩⟩, ⟨⟨"u"⟩, ⟨"2"⟩, ⟨"v"⟩⟩⟩).below ∧
      space.Reaches (growthStart pattern host true) offer ∧
      space.Reaches (growthStart pattern host true) offer' ∧
      space.key offer.state = space.key offer'.state ∧ offer = offer' ∧
      growMatches pattern host true true = growMatches pattern host true false ∧
      growFirstMatch pattern host true true = growFirstMatch pattern host true false ∧
      ∃ looks w, Pending.run space true looks
          ((Explorer.new true).pending (growthStart pattern host true)) = some w ∧
        growFirstMatch pattern host true true = w.found.head? := by
  obtain ⟨hall, hfirst, hrun, heq⟩ := growMatches_memory_irrel _ _ true
  refine ⟨_, _, _, _, rfl, rfl, ?seeds, rfl, rfl, ?one, ?other, ?key, heq _ _ ?one ?other ?key, hall,
    hfirst, (hrun ?seeds true).2⟩
  case one =>
    refine reaches_pair (reaches_pair (reaches_pair .refl ?_ ?_) ?_ ?_) ?_ ?_ <;> decide
  case other =>
    refine reaches_pair (reaches_pair (reaches_pair .refl ?_ ?_) ?_ ?_) ?_ ?_ <;> decide
  case key => decide
  case seeds => decide

end GraphHom
