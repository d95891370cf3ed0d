import GraphHom.Proofs.StateSpace.Keys
import GraphHom.Proofs.StateSpace.Reach

/-!
# Sequences of walks

One explorer can be asked again and again, for all results below a start or for the first one
(`Query`). What one walk has met the next one skips, so that the answers of an explorer with memory
depend on each other: each is made of the results that come into reach with its own query
(`Explorer.exists_answers_new`). A search for the first result that finds none is as good as a search
for all of them; one that finds a result breaks off, and leaves states behind whose successors have
not been met.
-/

namespace GraphHom

variable {σ χ κ ω : Type}

/-- What an explorer can be asked. -/
inductive Query (σ χ : Type) where
  /-- For all results below a start. -/
  | all (start : Offer σ χ)
  /-- For the first result below a start. -/
  | first (start : Offer σ χ)

/-- Where the walk for a query starts. -/
def Query.start : Query σ χ → Offer σ χ
  | .all start => start
  | .first start => start

/-- What an explorer answers. -/
inductive Answer (ω : Type) where
  /-- The results, in the order of their discovery. -/
  | all (results : List ω)
  /-- The first result, if there is one. -/
  | first (result : Option ω)

namespace StateSpace

/-- Some query reaches an offer with the key. -/
def Meets (space : StateSpace σ χ κ ω) (queries : List (Query σ χ)) (k : κ) : Prop :=
  ∃ query ∈ queries, ∃ o, space.Reaches query.start o ∧ space.key o.state = k

variable {space : StateSpace σ χ κ ω} {query : Query σ χ} {queries : List (Query σ χ)} {k : κ}

theorem not_meets_nil : ¬space.Meets [] k := fun ⟨_, hmem, _⟩ => by cases hmem

theorem meets_cons_iff : space.Meets (query :: queries) k ↔
    (∃ o, space.Reaches query.start o ∧ space.key o.state = k) ∨ space.Meets queries k := by
  simp [Meets]

end StateSpace

namespace Explorer

section Answers

variable [BEq κ] [Hashable κ] [BEq ω] [Hashable ω]

/-- The answer to one query, and the explorer afterwards. -/
def answer (e : Explorer κ) (space : StateSpace σ χ κ ω) (depth : Nat) :
    Query σ χ → Option (Answer ω × Explorer κ)
  | .all start => (e.allResults space depth start).map fun p => (.all p.1, p.2)
  | .first start => (e.firstResult space depth start).map fun p => (.first p.1, p.2)

/-- The answers to one query after the other, and the explorer afterwards. -/
def answers (space : StateSpace σ χ κ ω) (depth : Nat) :
    Explorer κ → List (Query σ χ) → Option (List (Answer ω) × Explorer κ)
  | e, [] => some ([], e)
  | e, query :: queries => do
    let (a, e') ← e.answer space depth query
    let (as, e'') ← answers space depth e' queries
    return (a :: as, e'')

/-- Every query for all results is answered by the results that come into reach with it, each once: by
those of the done states that its start leads to, and that neither the explorer nor an earlier query
has met. -/
def AnswersNew (space : StateSpace σ χ κ ω) (e : Explorer κ) (queries : List (Query σ χ))
    (answers : List (Answer ω)) : Prop :=
  ∀ i start, queries[i]? = some (.all start) → ∃ rs, answers[i]? = some (.all rs) ∧ rs.Nodup ∧
    ∀ r, r ∈ rs ↔ ∃ o, space.Reaches start o ∧ space.key o.state ∉ e.met ∧
      ¬space.Meets (queries.take i) (space.key o.state) ∧
      space.isDone o.state = true ∧ space.result o.state = r

variable {space : StateSpace σ χ κ ω} {e e' : Explorer κ} {queries : List (Query σ χ)}

/-- Only a query for a first result is answered by one. -/
theorem exists_first_mem_of_answers {depth : Nat} {as : List (Answer ω)} {r : Option ω}
    (h : answers space depth e queries = some (as, e')) (hmem : Answer.first r ∈ as) :
    ∃ start, Query.first start ∈ queries := by
  induction queries generalizing e as with
  | nil =>
    cases h
    cases hmem
  | cons query queries ih =>
    obtain ⟨⟨a, e₁⟩, ha, hrest⟩ := Option.bind_eq_some_iff.mp h
    obtain ⟨⟨as', e₂⟩, has, heq⟩ := Option.bind_eq_some_iff.mp hrest
    cases heq
    rcases List.mem_cons.mp hmem with rfl | hmem
    · cases query with
      | all start =>
        obtain ⟨p, -, hp⟩ := Option.map_eq_some_iff.mp ha
        cases hp
      | first start => exact ⟨start, List.mem_cons_self⟩
    · obtain ⟨start, hstart⟩ := ih has hmem
      exact ⟨start, List.mem_cons_of_mem query hstart⟩

end Answers

open StateSpace

variable [BEq κ] [Hashable κ] [LawfulBEq κ] [BEq ω] [Hashable ω] [LawfulBEq ω]
variable {space : StateSpace σ χ κ ω} {U : Offer σ χ → Prop} {keys : List κ}
variable {e e' : Explorer κ} {query : Query σ χ} {queries : List (Query σ χ)}

/-- One query: if it does not break off, it leaves the explorer settled, with what can be reached from
its start met. -/
theorem exists_answer (hk : space.KeysDecide U) (hkeys : ∀ o, U o → space.key o.state ∈ keys)
    (hU : U query.start) (hrem : e.remembers = true) :
    ∃ a e', (∀ depth, keys.length < depth → e.answer space depth query = some (a, e')) ∧
      e'.remembers = true ∧
      (e.Settled space U → (∀ r, a ≠ .first (some r)) → e'.Settled space U ∧
        (∀ k, k ∈ e'.met ↔ k ∈ e.met ∨ ∃ o, space.Reaches query.start o ∧ space.key o.state = k) ∧
        ∀ start, query = .all start → ∃ rs, a = .all rs ∧ rs.Nodup ∧
          ∀ r, r ∈ rs ↔ ∃ o, space.Reaches start o ∧ space.key o.state ∉ e.met ∧
            space.isDone o.state = true ∧ space.result o.state = r) := by
  cases query with
  | all start =>
    obtain ⟨rs, e₁, hall, hrem₁, hnew⟩ :=
      exists_allResults_settled (e := e) hk hkeys (show U start from hU) hrem
    refine ⟨.all rs, e₁, fun depth hdepth => ?_, hrem₁, fun hsettled _ => ?_⟩
    · show (e.allResults space depth start).map _ = _
      rw [hall depth hdepth, Option.map_some]
    · obtain ⟨hsettled₁, hmet, hnodup, hmem⟩ := hnew hsettled
      refine ⟨hsettled₁, hmet, fun start' hstart => ?_⟩
      cases hstart
      exact ⟨rs, rfl, hnodup, hmem⟩
  | first start =>
    obtain ⟨rs, e₁, hall, -, hnew⟩ :=
      exists_allResults_settled (e := e) hk hkeys (show U start from hU) hrem
    obtain ⟨e₂, hfirst, hsame⟩ := firstResult_of_allResults (hall _ (Nat.lt_succ_self _))
    refine ⟨.first rs.head?, e₂, fun depth hdepth => ?_, ?_, fun hsettled hnone => ?_⟩
    · show (e.firstResult space depth start).map _ = _
      rw [firstResult_mono hfirst hdepth, Option.map_some]
    · obtain ⟨w, hw, heq⟩ := Option.map_eq_some_iff.mp hfirst
      rw [← (Prod.mk.inj heq).2, Walk.remembers_eq hw]
      exact hrem
    · -- nothing was found, so nothing was broken off
      have hnil : rs = [] := by
        cases rs with
        | nil => rfl
        | cons r rs => exact absurd rfl (hnone r)
      obtain ⟨hsettled₁, hmet, -⟩ := hnew hsettled
      rw [hsame hnil]
      exact ⟨hsettled₁, hmet, fun start' hstart => by cases hstart⟩

/-- Queries one after the other, put to an explorer that may have met something already. -/
theorem exists_answers (hk : space.KeysDecide U) (hkeys : ∀ o, U o → space.key o.state ∈ keys)
    (hU : ∀ query ∈ queries, U query.start) (hrem : e.remembers = true) :
    ∃ as e', (∀ depth, keys.length < depth → answers space depth e queries = some (as, e')) ∧
      (e.Settled space U → (∀ r, Answer.first (some r) ∉ as) → e'.Settled space U ∧
        (∀ k, k ∈ e'.met ↔ k ∈ e.met ∨ space.Meets queries k) ∧
        AnswersNew space e queries as) := by
  induction queries generalizing e with
  | nil =>
    refine ⟨[], e, fun _ _ => rfl, fun hsettled _ => ⟨hsettled, fun k => ?_, fun i start h => ?_⟩⟩
    · exact ⟨.inl, fun h => h.resolve_right not_meets_nil⟩
    · cases h
  | cons query queries ih =>
    obtain ⟨a, e₁, hanswer, hrem₁, hone⟩ :=
      exists_answer (e := e) hk hkeys (hU query List.mem_cons_self) hrem
    obtain ⟨as, e', hrest, hmany⟩ := ih (fun q hq => hU q (List.mem_cons_of_mem query hq)) hrem₁
    refine ⟨a :: as, e', fun depth hdepth => ?_, fun hsettled hnone => ?_⟩
    · show (e.answer space depth query).bind _ = _
      rw [hanswer depth hdepth, Option.bind_some]
      show (answers space depth e₁ queries).bind _ = _
      rw [hrest depth hdepth]
      rfl
    · obtain ⟨hsettled₁, hmet₁, hresults⟩ :=
        hone hsettled fun r heq => hnone r (heq ▸ List.mem_cons_self)
      obtain ⟨hsettled', hmet', hnew⟩ :=
        hmany hsettled₁ fun r hmem => hnone r (List.mem_cons_of_mem a hmem)
      refine ⟨hsettled', fun k => ?_, fun i start hi => ?_⟩
      · rw [hmet', hmet₁, meets_cons_iff, or_assoc]
      · cases i with
        | zero =>
          obtain ⟨rs, rfl, hnodup, hmem⟩ := hresults start (Option.some.inj hi)
          refine ⟨rs, rfl, hnodup, fun r => (hmem r).trans (exists_congr fun o => ?_)⟩
          rw [List.take_zero]
          simp only [not_meets_nil, not_false_eq_true, true_and]
        | succ i =>
          obtain ⟨rs, hrs, hnodup, hmem⟩ := hnew i start hi
          refine ⟨rs, hrs, hnodup, fun r => (hmem r).trans (exists_congr fun o => ?_)⟩
          -- met before this query: by the explorer, by the first query, or by one in between
          simp only [List.take_succ_cons, meets_cons_iff, hmet₁, not_or, and_assoc]

/-- **What an explorer with memory answers.** In a space with finitely many keys that are to be trusted,
a new explorer answers any sequence of queries. If no query for a first result breaks off, every query
for all results is answered by those that come into reach with it, each once, and the states entered
are as many as the keys in reach of the queries. -/
theorem exists_answers_new (hk : space.KeysDecide U) (hkeys : ∀ o, U o → space.key o.state ∈ keys)
    (hU : ∀ query ∈ queries, U query.start) :
    ∃ as e, (∀ depth, keys.length < depth →
        answers space depth (Explorer.new true) queries = some (as, e)) ∧
      ((∀ r, Answer.first (some r) ∉ as) →
        (∀ i start, queries[i]? = some (.all start) → ∃ rs, as[i]? = some (.all rs) ∧ rs.Nodup ∧
          ∀ r, r ∈ rs ↔ ∃ o, space.Reaches start o ∧ space.isDone o.state = true ∧
            space.result o.state = r ∧ ¬space.Meets (queries.take i) (space.key o.state)) ∧
        ∃ met : List κ, met.Nodup ∧ (∀ k, k ∈ met ↔ space.Meets queries k) ∧
          e.entered = met.length) := by
  obtain ⟨as, e, has, hspec⟩ := exists_answers (e := Explorer.new true) hk hkeys hU rfl
  refine ⟨as, e, has, fun hnone => ?_⟩
  obtain ⟨hsettled, hmet, hnew⟩ := hspec settled_new hnone
  have hempty : ∀ k, k ∉ (Explorer.new true : Explorer κ).met := fun k => Std.HashSet.not_mem_empty
  refine ⟨fun i start hi => ?_, e.met.toList, ?_, fun k => ?_, ?_⟩
  · obtain ⟨rs, hrs, hnodup, hmem⟩ := hnew i start hi
    refine ⟨rs, hrs, hnodup, fun r => (hmem r).trans (exists_congr fun o => ?_)⟩
    simp only [hempty, not_false_eq_true, true_and]
    tauto
  · exact Std.HashSet.distinct_toList.imp fun {k k'} h => by simpa using h
  · rw [Std.HashSet.mem_toList, hmet]
    exact ⟨fun h => h.resolve_left (hempty k), .inr⟩
  · rw [hsettled.entered, Std.HashSet.length_toList]

/-- From `s` and from `c` the result `z` is reached, from `s` by way of a circle through `a` and `b`,
and from `c` also the result `w`. -/
def circle : Table where
  rows := [
    ("s", ⟨["n"], [("n", "a")], none, none⟩),
    ("a", ⟨["n"], [("n", "b")], none, none⟩),
    ("b", ⟨["n", "m"], [("n", "a"), ("m", "x")], none, none⟩),
    ("x", ⟨[], [], some "z", none⟩),
    ("c", ⟨["m", "n"], [("m", "x"), ("n", "y")], none, none⟩),
    ("y", ⟨[], [], some "w", none⟩)]

/-- Two queries on a space with a circle, with a state that both reach. -/
theorem exists_answers_new_circle :
    circle.space.KeysDecide (circle.Listed ["s", "a", "b", "x", "c", "y"]) ∧
    (∀ o, circle.Listed ["s", "a", "b", "x", "c", "y"] o →
      circle.space.key o.state ∈ ["s", "a", "b", "x", "c", "y"]) ∧
    (∀ query ∈ [Query.all (circle.offer "s"), .all (circle.offer "c")],
      circle.Listed ["s", "a", "b", "x", "c", "y"] query.start) ∧
    ∃ as e, (∀ depth, 6 < depth → answers circle.space depth (Explorer.new true)
        [.all (circle.offer "s"), .all (circle.offer "c")] = some (as, e)) ∧
      (∀ i start, [Query.all (circle.offer "s"), .all (circle.offer "c")][i]? = some (.all start) →
        ∃ rs, as[i]? = some (.all rs) ∧ rs.Nodup ∧
          ∀ r, r ∈ rs ↔ ∃ o, circle.space.Reaches start o ∧ circle.space.isDone o.state = true ∧
            circle.space.result o.state = r ∧
            ¬circle.space.Meets ([Query.all (circle.offer "s"), .all (circle.offer "c")].take i)
              (circle.space.key o.state)) ∧
      ∃ met : List String, met.Nodup ∧
        (∀ k, k ∈ met ↔
          circle.space.Meets [.all (circle.offer "s"), .all (circle.offer "c")] k) ∧
        e.entered = met.length := by
  have hk : circle.space.KeysDecide (circle.Listed ["s", "a", "b", "x", "c", "y"]) :=
    Table.keysDecide_listed (by decide) (by decide) (by decide)
  have hkeys : ∀ o, circle.Listed ["s", "a", "b", "x", "c", "y"] o →
      circle.space.key o.state ∈ ["s", "a", "b", "x", "c", "y"] := by
    intro o ho
    have hstates : ∀ state ∈ ["s", "a", "b", "x", "c", "y"],
        circle.space.key state ∈ ["s", "a", "b", "x", "c", "y"] := by decide
    exact hstates _ ho.1
  have hU : ∀ query ∈ [Query.all (circle.offer "s"), .all (circle.offer "c")],
      circle.Listed ["s", "a", "b", "x", "c", "y"] query.start := by
    intro query hquery
    rcases List.mem_pair.mp hquery with rfl | rfl
    · exact ⟨by decide, rfl⟩
    · exact ⟨by decide, rfl⟩
  obtain ⟨as, e, has, hspec⟩ := exists_answers_new hk hkeys hU
  refine ⟨hk, hkeys, hU, as, e, has, hspec fun r hmem => ?_⟩
  obtain ⟨start, hstart⟩ := exists_first_mem_of_answers (has 7 (by decide)) hmem
  rcases List.mem_pair.mp hstart with h | h <;> cases h

end Explorer

end GraphHom
