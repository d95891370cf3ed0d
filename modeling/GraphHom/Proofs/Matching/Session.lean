import GraphHom.Proofs.Matching.First
import GraphHom.Proofs.Matching.Typed

/-!
# Sequences of requests

One matcher can be asked again and again, for all matches, for the first one, whether there is one, or
for all typed matches (`Request`). What it answers depends on what it was asked before only in the
names of the morphisms: every request uses up one name for each morphism in its answer, from the
supply of the engine that finds them, and nothing else changes (`exists_answer`).

Over a whole session the morphisms that one engine finds are therefore called by the names of its
supply, one after the other and without a gap (`names_foundBy`). The names of the two supplies are
different from each other, so that no two morphisms have one name (`session_names`).
-/

namespace GraphHom

namespace Matcher

/-! ## Requests and answers -/

/-- What a matcher can be asked. -/
inductive Request where
  /-- For all matches of a pattern in a host. -/
  | all (pattern host : Graph) (injective : Bool)
  /-- For the first match. -/
  | first (pattern host : Graph) (injective : Bool)
  /-- Whether there is a match. -/
  | exist (pattern host : Graph) (injective : Bool)
  /-- For all matches of a typed pattern in a typed host. -/
  | allTyped (pattern host : Morphism)

/-- The engine that finds what is asked for. -/
def Request.engine (c : MatcherConfig) : Request → Engine
  | .allTyped _ _ => .constraints
  | _ => c.engine

/-- What a matcher answers, the matches being given as `α`. -/
inductive Answer (α : Type) where
  /-- All matches, in the order in which they are found. -/
  | all (results : List α)
  /-- The first match, if there is one. -/
  | first (found : Option α)
  /-- Whether there is a match. -/
  | exist (found : Bool)

namespace Answer

variable {α β : Type}

/-- The matches in an answer. -/
def results : Answer α → List α
  | all ms => ms
  | first found => found.toList
  | exist _ => []

/-- The answer with its matches given in another way. -/
def map (f : α → β) : Answer α → Answer β
  | all ms => .all (ms.map f)
  | first found => .first (found.map f)
  | exist found => .exist found

end Answer

/-- The answer to one request, and the matcher afterwards. -/
def answer (m : Matcher) : Request → Except MatchError (Answer Morphism) × Matcher
  | .all pattern host injective =>
    let (result, m') := m.allMatches pattern host injective
    (result.map .all, m')
  | .first pattern host injective =>
    let (result, m') := m.firstMatch pattern host injective
    (result.map .first, m')
  | .exist pattern host injective => ((m.existsMatch pattern host injective).map .exist, m)
  | .allTyped pattern host =>
    let (result, m') := m.allTypedMatches pattern host
    (result.map .all, m')

/-- A request with the answer to it. -/
structure Exchange where
  /-- The request. -/
  request : Request
  /-- The answer. -/
  answer : Except MatchError (Answer Morphism)

/-- The morphisms that are returned. -/
def Exchange.results (x : Exchange) : List Morphism :=
  match x.answer with
  | .ok a => a.results
  | .error _ => []

/-- One request after the other, each with its answer. -/
def session : Matcher → List Request → List Exchange
  | _, [] => []
  | m, r :: requests => ⟨r, (m.answer r).1⟩ :: (m.answer r).2.session requests

/-- The morphisms that an engine has found, in the order in which they were returned. -/
def foundBy (c : MatcherConfig) (e : Engine) (xs : List Exchange) : List Morphism :=
  (xs.filter fun x => x.request.engine c = e).flatMap Exchange.results

/-! ## Supplies of names -/

/-- The names left for the matches that an engine finds. -/
def supply (m : Matcher) : Engine → NameSupply
  | .constraints => m.solved
  | .growth => m.grown

/-- The matcher without the next `n` names for an engine. -/
def skip (m : Matcher) (e : Engine) (n : Nat) : Matcher :=
  match e with
  | .constraints => { m with solved := m.solved.skip n }
  | .growth => { m with grown := m.grown.skip n }

variable {m : Matcher} {e e' : Engine} {n : Nat}

@[simp] theorem config_skip : (m.skip e n).config = m.config := by
  cases e <;> rfl

theorem supply_skip_self : (m.skip e n).supply e = (m.supply e).skip n := by
  cases e <;> rfl

theorem supply_skip_of_ne (h : e' ≠ e) : (m.skip e n).supply e' = m.supply e' := by
  cases e <;> cases e' <;> first | rfl | exact absurd rfl h

theorem skip_zero : m.skip e 0 = m := by
  cases e <;> rfl

theorem names_eq : m.names = m.supply m.config.engine := by
  unfold names supply
  cases m.config.engine <;> rfl

theorem withNames_skip : m.withNames (m.names.skip n) = m.skip m.config.engine n := by
  unfold withNames names skip
  cases m.config.engine <;> rfl

/-! ## One request -/

/-- What a typed request does to the names, and to nothing else. -/
theorem exists_typedCall (pattern host : Morphism) :
    ∃ fs, ∀ m : Matcher, ∃ ms, m.solved.HandsOut fs ms ∧
      m.allTypedMatches pattern host = (.ok ms, m.skip .constraints ms.length) := by
  by_cases hmatched : pattern.codomain = host.codomain ∧ pattern.domain.isEmpty = false
  · obtain ⟨l, hlisted, hcall⟩ := exists_typedPairs hmatched.1 hmatched.2
    obtain ⟨ms₀, hms₀, -⟩ := hlisted (.new "")
    refine ⟨ms₀.map Morphism.mapping, fun m => ?_⟩
    obtain ⟨ms, hms, hout⟩ := NameSupply.exists_handsOut hms₀ m.solved
    refine ⟨ms, hout, ?_⟩
    rw [hcall, hms]
    rfl
  · refine ⟨[], fun m => ⟨[], ⟨rfl, rfl⟩, ?_⟩⟩
    rw [not_and_or, Bool.not_eq_false] at hmatched
    rw [allTypedMatches, if_pos (by simpa using hmatched)]
    rfl

/-- A request is answered, and its answer has the maps of `shape`. Its morphisms are called by the next
names for the engine that finds them, and this is all that happens to the matcher. -/
structure Answers (m : Matcher) (r : Request) (shape : Answer LabelMap) (a : Answer Morphism) :
    Prop where
  /-- The answer, and the matcher afterwards. -/
  answer_eq : m.answer r = (.ok a, m.skip (r.engine m.config) a.results.length)
  /-- The maps of the morphisms. -/
  map_eq : a.map Morphism.mapping = shape
  /-- The names of the morphisms. -/
  names_eq : a.results.map Morphism.name =
    (m.supply (r.engine m.config)).upcoming a.results.length

/-- **Requests do not depend on each other.** What is answered to a request depends on nothing but the
configuration, the names apart. -/
theorem exists_answer (c : MatcherConfig) (r : Request) :
    ∃ shape, ∀ m : Matcher, m.config = c → ∃ a, m.Answers r shape a := by
  cases r with
  | all pattern host injective =>
    obtain ⟨fs, hcalls⟩ := exists_calls c pattern host injective
    refine ⟨.all fs, fun m hc => ?_⟩
    obtain ⟨ms, hout, hall, -, -⟩ := hcalls m hc
    refine ⟨.all ms, ?_, ?_, ?_⟩
    · simp only [answer, hall, withNames_skip]
      rfl
    · show Answer.all (ms.map Morphism.mapping) = .all fs
      rw [hout.mappings_eq]
    · show ms.map Morphism.name = (m.supply m.config.engine).upcoming ms.length
      rw [hout.names_eq, names_eq]
  | first pattern host injective =>
    obtain ⟨fs, hcalls⟩ := exists_calls c pattern host injective
    refine ⟨.first fs.head?, fun m hc => ?_⟩
    obtain ⟨ms, hout, -, hfirst, -⟩ := hcalls m hc
    have hhead : m.names.HandsOut fs.head?.toList ms.head?.toList := by
      rw [← List.take_one, ← List.take_one]
      exact hout.take 1
    refine ⟨.first ms.head?, ?_, ?_, ?_⟩
    · simp only [answer, hfirst, withNames_skip]
      rfl
    · show Answer.first (ms.head?.map Morphism.mapping) = .first fs.head?
      rw [← List.head?_map, hout.mappings_eq]
    · show ms.head?.toList.map Morphism.name =
        (m.supply m.config.engine).upcoming ms.head?.toList.length
      rw [hhead.names_eq, names_eq]
  | exist pattern host injective =>
    obtain ⟨fs, hcalls⟩ := exists_calls c pattern host injective
    refine ⟨.exist fs.head?.isSome, fun m hc => ?_⟩
    obtain ⟨ms, hout, -, -, hexist⟩ := hcalls m hc
    refine ⟨.exist ms.head?.isSome, ?_, ?_, rfl⟩
    · show ((m.existsMatch pattern host injective).map Answer.exist, m) = _
      rw [hexist]
      exact congrArg _ skip_zero.symm
    · show Answer.exist ms.head?.isSome = .exist fs.head?.isSome
      rw [← hout.mappings_eq, List.head?_map, Option.isSome_map]
  | allTyped pattern host =>
    obtain ⟨fs, hcall⟩ := exists_typedCall pattern host
    refine ⟨.all fs, fun m _ => ?_⟩
    obtain ⟨ms, hout, hall⟩ := hcall m
    refine ⟨.all ms, ?_, ?_, ?_⟩
    · simp only [answer, hall]
      rfl
    · show Answer.all (ms.map Morphism.mapping) = .all fs
      rw [hout.mappings_eq]
    · exact hout.names_eq

/-! ## Many requests -/

variable {r : Request} {requests : List Request} {a : Answer Morphism} {xs : List Exchange}
variable {c : MatcherConfig} {x : Exchange} {shape : Answer LabelMap}

theorem session_cons (h : m.Answers r shape a) : m.session (r :: requests) =
    ⟨r, .ok a⟩ :: (m.skip (r.engine m.config) a.results.length).session requests := by
  rw [session, h.answer_eq]

theorem map_request_session : (m.session requests).map Exchange.request = requests := by
  induction requests generalizing m with
  | nil => rfl
  | cons r requests ih =>
    show r :: ((m.answer r).2.session requests).map Exchange.request = r :: requests
    rw [ih]

/-- Every request of a session is answered as it is by a matcher that has not been asked before. -/
theorem exists_answer_of_mem_session (h : x ∈ m.session requests) :
    ∃ a fresh, x.answer = .ok a ∧ ((new m.config).answer x.request).1 = .ok fresh ∧
      a.map Morphism.mapping = fresh.map Morphism.mapping := by
  induction requests generalizing m with
  | nil => cases h
  | cons r requests ih =>
    obtain ⟨shape, hanswers⟩ := exists_answer m.config r
    obtain ⟨a, ha⟩ := hanswers m rfl
    rw [session_cons ha] at h
    rcases List.mem_cons.mp h with rfl | h
    · obtain ⟨fresh, hfresh⟩ := hanswers (new m.config) rfl
      exact ⟨a, fresh, rfl, congrArg Prod.fst hfresh.answer_eq, ha.map_eq.trans hfresh.map_eq.symm⟩
    · obtain ⟨b, hb⟩ := ih h
      rw [config_skip] at hb
      exact ⟨b, hb⟩

theorem foundBy_cons : foundBy c e (x :: xs) =
    if x.request.engine c = e then x.results ++ foundBy c e xs else foundBy c e xs := by
  unfold foundBy
  by_cases he : x.request.engine c = e
  · rw [if_pos he, List.filter_cons_of_pos (by simpa using he), List.flatMap_cons]
  · rw [if_neg he, List.filter_cons_of_neg (by simpa using he)]

/-- What is found by one engine or the other is all that is found. -/
theorem foundBy_append_perm (c : MatcherConfig) (xs : List Exchange) :
    (foundBy c .constraints xs ++ foundBy c .growth xs).Perm (xs.flatMap Exchange.results) := by
  have hother : ∀ e : Engine, decide (e = .growth) = !decide (e = .constraints) := by
    intro e
    cases e <;> rfl
  unfold foundBy
  rw [← List.flatMap_append]
  simp only [hother]
  exact (List.filter_append_perm _ xs).flatMap_right _

/-- **An engine's names are used in their order, without a gap.** -/
theorem names_foundBy : (foundBy m.config e (m.session requests)).map Morphism.name =
    (m.supply e).upcoming (foundBy m.config e (m.session requests)).length := by
  induction requests generalizing m with
  | nil => rfl
  | cons r requests ih =>
    obtain ⟨shape, hanswers⟩ := exists_answer m.config r
    obtain ⟨a, ha⟩ := hanswers m rfl
    -- the other requests go to the matcher without the names that the first answer has used up
    have hrest := ih (m := m.skip (r.engine m.config) a.results.length)
    rw [config_skip] at hrest
    rw [session_cons ha, foundBy_cons]
    by_cases he : r.engine m.config = e
    · -- the names of this answer come first
      subst he
      rw [supply_skip_self] at hrest
      rw [if_pos rfl, List.map_append, hrest, List.length_append, NameSupply.upcoming_add]
      exact congrArg (· ++ _) ha.names_eq
    · rw [supply_skip_of_ne (Ne.symm he)] at hrest
      rw [if_neg he, hrest]

/-- A new matcher calls the matches of an engine by the names of its supply. -/
theorem names_foundBy_new (c : MatcherConfig) (e : Engine) (requests : List Request) :
    (foundBy c e ((new c).session requests)).map Morphism.name =
      ((new c).supply e).upcoming (foundBy c e ((new c).session requests)).length :=
  names_foundBy (m := new c)

theorem name_eq_of_getElem?_foundBy {i : Nat} {f : Morphism}
    (h : (foundBy c e ((new c).session requests))[i]? = some f) :
    f.name = ((new c).supply e).nameAt i := by
  obtain ⟨hi, -⟩ := List.getElem?_eq_some_iff.mp h
  have hname := congrArg (·[i]?) (names_foundBy_new c e requests)
  simp only [List.getElem?_map, h, NameSupply.getElem?_upcoming hi] at hname
  exact Option.some.inj hname

theorem nodup_names_session :
    ((((new c).session requests).flatMap Exchange.results).map Morphism.name).Nodup := by
  have hperm := (foundBy_append_perm c ((new c).session requests)).map Morphism.name
  rw [← hperm.nodup_iff, List.map_append, names_foundBy_new c, names_foundBy_new c]
  refine NameSupply.nodup_upcoming.append NameSupply.nodup_upcoming fun n hn hn' => ?_
  -- a name for what is solved is none for what is grown
  obtain ⟨i, -, rfl⟩ := List.mem_map.mp hn
  obtain ⟨j, -, hj⟩ := List.mem_map.mp hn'
  have hmark : ("match#" : String).toList = "match".toList ++ '#' :: [] := by decide
  exact NameSupply.nameAt_ne_nameAt (by decide) hmark hj.symm

/-- **The names of a session.** Whatever a matcher is asked one after the other, every request is
answered, and with the same maps as by a matcher that has not been asked before. The matches that are
solved, typed or not, are called `match0`, `match1` and so on, those that are grown `match#0`,
`match#1` and so on, in the order in which they are returned; no two morphisms ever returned have one
name. -/
theorem session_names (c : MatcherConfig) (requests : List Request) :
    ((new c).session requests).map Exchange.request = requests ∧
    (∀ x ∈ (new c).session requests, ∃ a fresh, x.answer = .ok a ∧
      ((new c).answer x.request).1 = .ok fresh ∧
      a.map Morphism.mapping = fresh.map Morphism.mapping) ∧
    (∀ (i : Nat) (f : Morphism), (foundBy c .constraints ((new c).session requests))[i]? = some f →
      f.name = ⟨"match" ++ toString i⟩) ∧
    (∀ (i : Nat) (f : Morphism), (foundBy c .growth ((new c).session requests))[i]? = some f →
      f.name = ⟨"match#" ++ toString i⟩) ∧
    ((((new c).session requests).flatMap Exchange.results).map Morphism.name).Nodup := by
  refine ⟨map_request_session, fun x hx => exists_answer_of_mem_session hx, ?_, ?_,
    nodup_names_session⟩
  · intro i f hf
    rw [name_eq_of_getElem?_foundBy hf]
    exact NameSupply.nameAt_new
  · intro i f hf
    rw [name_eq_of_getElem?_foundBy hf]
    exact NameSupply.nameAt_new

end Matcher

end GraphHom
