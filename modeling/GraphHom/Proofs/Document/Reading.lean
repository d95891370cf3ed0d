import GraphHom.Document.Grammar
import GraphHom.Proofs.Document.Spelling
import Mathlib.Data.List.Basic

/-!
# What readers read

`Reads r v L` says what a reader does with any tokens, wherever they stand: it goes on with a value `b`
and leaves `rest` exactly if `L ts b rest`. The relation for a composed reader follows from those for its
parts, one lemma for each way of composing. A choice, an optional part or a repetition is greedy; where
what follows cannot be taken for one more part, greed does no harm (`Reads.bind_optional`,
`Reads.many_closed`), and the parts may be described without looking ahead.

So each reader of the grammar reads what is spelt and nothing else, and `readDefinitions` answers a list of
definitions exactly if the tokens spell them in turn (`readDefinitions_eq_ok_iff`).
-/

namespace GraphHom

namespace Reader

variable {α β γ δ : Type}

/-! ## Outcomes

What is read and where reading goes on does not depend on the failures met before. -/

theorem outcome_pure (a : α) (c : Cursor) : ((pure a : Reader α) c).outcome = some (a, c) := rfl

theorem outcome_bind (r : Reader α) (f : α → Reader β) (c : Cursor) :
    ((r >>= f) c).outcome = (r c).outcome.bind fun x => (f x.1 x.2).outcome := by
  simp only [bind]
  rcases r c with ⟨failures, _ | ⟨a, c'⟩⟩ <;> rfl

theorem outcome_tracked (k : Construct) (r : Reader α) (c : Cursor) :
    (tracked k r c).outcome = (r c).outcome := by
  simp only [tracked]
  rcases r c with ⟨failures, _ | ⟨a, c'⟩⟩ <;> rfl

theorem outcome_optional (r : Reader α) (c : Cursor) :
    (optional r c).outcome =
      some ((r c).outcome.elim (none, c) fun x => (some x.1, x.2)) := by
  simp only [optional]
  rcases r c with ⟨failures, _ | ⟨a, c'⟩⟩ <;> rfl

theorem outcome_either (r s : Reader α) (c : Cursor) :
    (either r s c).outcome = (r c).outcome.or (s c).outcome := by
  simp only [either]
  rcases r c with ⟨failures, _ | ⟨a, c'⟩⟩ <;> rfl

theorem outcome_many (r : Reader α) (c : Cursor) :
    (many r c).outcome = (r c).outcome.elim (some ([], c)) fun x =>
      if x.2.rest.length < c.rest.length then
        (many r x.2).outcome.map fun y => (x.1 :: y.1, y.2)
      else some ([x.1], x.2) := by
  rw [many]
  rcases r c with ⟨failures, _ | ⟨a, c'⟩⟩
  · rfl
  · simp only [Option.elim_some]
    split <;> rfl

/-- A repetition always goes on. -/
theorem exists_outcome_many (r : Reader α) (c : Cursor) :
    ∃ as c', (many r c).outcome = some (as, c') := by
  induction hn : c.rest.length using Nat.strongRecOn generalizing c with
  | _ n ih =>
    rw [outcome_many]
    rcases (r c).outcome with _ | ⟨a, c'⟩
    · exact ⟨[], c, rfl⟩
    · rw [Option.elim_some]
      split
      · rename_i hlen
        obtain ⟨as, c'', has⟩ := ih c'.rest.length (hn ▸ hlen) c' rfl
        exact ⟨a :: as, c'', by rw [has, Option.map_some]⟩
      · exact ⟨[a], c', rfl⟩

/-! ## Failures

What a reader leaves behind is what its parts leave behind, in the order in which they are tried. -/

theorem failures_bind (r : Reader α) (f : α → Reader β) (c : Cursor) :
    ((r >>= f) c).failures =
      (r c).failures ++ (r c).outcome.elim [] fun x => (f x.1 x.2).failures := by
  simp only [bind]
  rcases r c with ⟨failures, _ | ⟨a, c'⟩⟩
  · rw [Option.elim_none, List.append_nil]
  · rfl

theorem failures_tracked (k : Construct) (r : Reader α) (c : Cursor) :
    (tracked k r c).failures =
      (r c).failures ++ (r c).outcome.elim [⟨c.place, k⟩] fun _ => [] := by
  simp only [tracked]
  rcases r c with ⟨failures, _ | ⟨a, c'⟩⟩
  · rfl
  · rw [Option.elim_some, List.append_nil]

theorem failures_optional (r : Reader α) (c : Cursor) :
    (optional r c).failures = (r c).failures := by
  simp only [optional]
  rcases r c with ⟨failures, _ | ⟨a, c'⟩⟩ <;> rfl

theorem failures_either (r s : Reader α) (c : Cursor) :
    (either r s c).failures = (r c).failures ++ (r c).outcome.elim (s c).failures fun _ => [] := by
  simp only [either]
  rcases r c with ⟨failures, _ | ⟨a, c'⟩⟩
  · rfl
  · rw [Option.elim_some, List.append_nil]

theorem failures_many (r : Reader α) (c : Cursor) :
    (many r c).failures = (r c).failures ++ (r c).outcome.elim [] fun x =>
      if x.2.rest.length < c.rest.length then (many r x.2).failures else [] := by
  rw [many]
  rcases r c with ⟨failures, _ | ⟨a, c'⟩⟩
  · rw [Option.elim_none, List.append_nil]
  · simp only [Option.elim_some]
    split
    · rfl
    · rw [List.append_nil]

theorem failures_token (t : Token) (c : Cursor) : (token t c).failures = [] := by
  rw [token]
  split
  · rfl
  · split <;> rfl

theorem failures_keyword (k : List Char) (c : Cursor) : (keyword k c).failures = [] := by
  rw [keyword]
  split
  · split <;> rfl
  · rfl

theorem failures_word (c : Cursor) : (word c).failures = [] := by
  rw [word]
  split <;> rfl

theorem failures_noToken (c : Cursor) : (noToken c).failures = [] := by
  rw [noToken]
  split <;> rfl

/-! ## Reading as a relation -/

/-- From any place, `r` goes on with a value that shows as `b` and leaves `rest` exactly if
`L ts b rest`. -/
def Reads (r : Reader α) (v : α → β) (L : List Token → β → List Token → Prop) : Prop :=
  ∀ place ts b rest,
    (∃ a place', (r ⟨place, ts⟩).outcome = some (a, ⟨place', rest⟩) ∧ v a = b) ↔ L ts b rest

/-- What is read is what `S` says, whatever follows. -/
def Exactly (S : β → List Token → Prop) (ts : List Token) (b : β) (rest : List Token) : Prop :=
  ∃ part, S b part ∧ ts = part ++ rest

/-- What is read is what `S` says and a closing parenthesis. -/
def Closed (S : β → List Token → Prop) (ts : List Token) (b : β) (rest : List Token) : Prop :=
  ∃ body, S b body ∧ ts = body ++ .closing :: rest

variable {r s : Reader α} {f : α → Reader β} {u : α → δ} {v : α → β} {w : β → γ} {t : Token}
  {keyword' : String} {k : List Char} {body ts rest : List Token}
  {L : List Token → β → List Token → Prop}
  {P : List Token → α → List Token → Prop} {Q : α → List Token → γ → List Token → Prop}
  {R : List Token → γ → List Token → Prop} {S T : β → List Token → Prop}

theorem Reads.congr {L' : List Token → β → List Token → Prop} (h : Reads r v L)
    (hL : ∀ ts b rest, L ts b rest ↔ L' ts b rest) : Reads r v L' := by
  intro place ts b rest
  rw [h place ts b rest, hL]

/-- What a reader goes on with is what its relation says. -/
theorem Reads.of_outcome (h : Reads r v L) {c c' : Cursor} {a : α}
    (ha : (r c).outcome = some (a, c')) : L c.rest (v a) c'.rest :=
  (h c.place c.rest (v a) c'.rest).mp ⟨a, c'.place, ha, rfl⟩

/-- A reader fails where its relation has nothing. -/
theorem Reads.of_outcome_none (h : Reads r v L) {c : Cursor} (hc : (r c).outcome = none) {b : β}
    {rest : List Token} : ¬L c.rest b rest := by
  intro hL
  obtain ⟨a, place', ha, -⟩ := (h c.place c.rest b rest).mpr hL
  rw [hc] at ha
  exact absurd ha (by simp)

/-- There is one way to go on. -/
theorem Reads.eq_of_outcome (h : Reads r v L) {place place' : Place} {a : α} {b : β}
    {mid : List Token} (ha : (r ⟨place, ts⟩).outcome = some (a, ⟨place', mid⟩)) (hL : L ts b rest) :
    v a = b ∧ mid = rest := by
  obtain ⟨a', place'', ha', hv⟩ := (h place ts b rest).mpr hL
  rw [ha, Option.some.injEq, Prod.mk.injEq, Cursor.mk.injEq] at ha'
  obtain ⟨rfl, -, rfl⟩ := ha'
  exact ⟨hv, rfl⟩

/-- Every step of reading uses up tokens. -/
def Shrinks (r : Reader α) : Prop :=
  ∀ c a c', (r c).outcome = some (a, c') → c'.rest.length < c.rest.length

theorem Reads.shrinks (h : Reads r v (Exactly S)) (hS : ∀ b part, S b part → part ≠ []) :
    Shrinks r := by
  intro c a c' ha
  obtain ⟨part, hpart, hrest⟩ := h.of_outcome ha
  have hpos := List.length_pos_iff.mpr (hS _ _ hpart)
  rw [hrest, List.length_append]
  omega

theorem reads_pure {a : α} {b : β} (h : v a = b) :
    Reads (pure a) v fun ts b' rest => b = b' ∧ ts = rest := by
  subst h
  intro place ts b' rest
  constructor
  · rintro ⟨a', place', ha, hv⟩
    rw [outcome_pure] at ha
    cases ha
    exact ⟨hv, rfl⟩
  · rintro ⟨rfl, rfl⟩
    exact ⟨a, place, rfl, rfl⟩

/-- One reader followed by another, which is known by what the value of the first shows as. -/
theorem Reads.bind_shown {P : List Token → δ → List Token → Prop}
    {Q : δ → List Token → γ → List Token → Prop} (hr : Reads r u P)
    (hf : ∀ a, Reads (f a) w (Q (u a))) :
    Reads (r >>= f) w fun ts b rest => ∃ d mid, P ts d mid ∧ Q d mid b rest := by
  intro place ts b rest
  simp only [outcome_bind, Option.bind_eq_some_iff]
  constructor
  · rintro ⟨b', place', ⟨⟨a, c⟩, ha, hb⟩, hw⟩
    exact ⟨u a, c.rest, hr.of_outcome ha, (hf a c.place c.rest b rest).mp ⟨b', place', hb, hw⟩⟩
  · rintro ⟨d, mid, hP, hQ⟩
    obtain ⟨a, place', ha, rfl⟩ := (hr place ts d mid).mpr hP
    obtain ⟨b', place'', hb, hw⟩ := (hf a place' mid b rest).mpr hQ
    exact ⟨b', place'', ⟨(a, ⟨place', mid⟩), ha, hb⟩, hw⟩

theorem Reads.bind (hr : Reads r id P) (hf : ∀ a, Reads (f a) w (Q a)) :
    Reads (r >>= f) w fun ts b rest => ∃ a mid, P ts a mid ∧ Q a mid b rest :=
  hr.bind_shown hf

/-- A reader whose value does not matter, followed by another. -/
theorem Reads.skip {L : List Token → List Token → Prop}
    (hr : Reads r (fun _ => ()) fun ts _ rest => L ts rest) (hf : ∀ a, Reads (f a) w R) :
    Reads (r >>= f) w fun ts b rest => ∃ mid, L ts mid ∧ R mid b rest :=
  (hr.bind_shown (Q := fun _ => R) hf).congr fun _ _ _ => by simp only [exists_const]

theorem Reads.tracked (h : Reads r v L) (c : Construct) : Reads (tracked c r) v L := by
  intro place ts b rest
  rw [outcome_tracked]
  exact h place ts b rest

/-! ## Single tokens -/

theorem reads_token : Reads (token t) (fun _ => ()) fun ts _ rest => ts = t :: rest := by
  intro place ts b rest
  simp only [token]
  cases ts with
  | nil => simp
  | cons t' ts =>
    by_cases h : t' = t
    · simp [h]
    · simp [h]

/-- The closing parenthesis at the end of a part. -/
theorem reads_end {g : Nat → α} {b : β} (hg : ∀ n, v (g n) = b) :
    Reads (token .closing >>= fun n => pure (g n)) v fun ts b' rest =>
      ts = .closing :: rest ∧ b = b' := by
  refine (reads_token.skip fun n => reads_pure (hg n)).congr fun ts b' rest => ?_
  constructor
  · rintro ⟨mid, rfl, rfl, rfl⟩
    exact ⟨rfl, rfl⟩
  · rintro ⟨rfl, rfl⟩
    exact ⟨rest, rfl, rfl, rfl⟩

theorem reads_return (a : α) :
    Reads (token .closing >>= fun _ => pure a) id fun ts a' rest => ts = .closing :: rest ∧ a = a' :=
  reads_end fun _ => rfl

theorem reads_noToken : Reads noToken (fun _ => ()) fun ts _ rest => ts = [] ∧ rest = [] := by
  intro place ts b rest
  simp only [noToken]
  cases ts with
  | nil => simp [eq_comm]
  | cons t ts => simp

theorem keyworded_word_iff {word : List Char} :
    Keyworded k body (.word word :: ts) ↔ ∃ more, k.isPrefixOf? word = some more ∧
      ((more = [] ∧ body = ts) ∨ (more ≠ [] ∧ body = .word more :: ts)) := by
  simp only [List.isPrefixOf?_eq_some_iff_append_eq]
  constructor
  · intro h
    cases h with
    | apart => exact ⟨[], List.append_nil _, .inl ⟨rfl, rfl⟩⟩
    | @glued more _ hne => exact ⟨more, rfl, .inr ⟨hne, rfl⟩⟩
  · rintro ⟨more, rfl, ⟨rfl, rfl⟩ | ⟨hne, rfl⟩⟩
    · rw [List.append_nil]
      exact .apart _
    · exact .glued _ hne

theorem reads_keyword :
    Reads (keyword k) (fun _ => ()) fun ts _ rest => Keyworded k rest ts := by
  intro place ts b rest
  match ts with
  | [] | .opening :: ts | .closing :: ts =>
    simp only [keyword, reduceCtorEq, false_and, exists_false, false_iff]
    intro h
    cases h
  | .word word :: ts =>
    refine Iff.trans ?_ keyworded_word_iff.symm
    simp only [keyword]
    match k.isPrefixOf? word with
    | none => simp
    | some [] => simp [eq_comm]
    | some (c :: more) => simp [eq_comm]

theorem reads_name : Reads Grammar.name id fun ts n rest => ts = n.token :: rest := by
  refine Reads.tracked ?_ _
  intro place ts n rest
  match ts with
  | [] | .opening :: ts | .closing :: ts => simp [word, Name.token]
  | .word chars :: ts =>
    obtain ⟨text⟩ := n
    simp only [word, Name.token, Option.some.injEq, Prod.mk.injEq, Cursor.mk.injEq, id_eq,
      List.cons.injEq, Token.word.injEq]
    constructor
    · rintro ⟨a, place', ⟨rfl, -, rfl⟩, ha⟩
      cases ha
      exact ⟨String.toList_ofList.symm, rfl⟩
    · rintro ⟨rfl, rfl⟩
      exact ⟨⟨text⟩, _, ⟨by rw [String.ofList_toList], rfl, rfl⟩, rfl⟩

/-! ## Parts in brackets -/

/-- What stands before a closing parenthesis cannot make a word longer. -/
theorem keyworded_append_closing_iff :
    Keyworded k (body ++ .closing :: rest) ts ↔
      ∃ inner, Keyworded k body inner ∧ ts = inner ++ .closing :: rest := by
  constructor
  · intro h
    generalize hfull : body ++ .closing :: rest = full at h
    cases h with
    | apart =>
      subst hfull
      exact ⟨.word k :: body, .apart body, rfl⟩
    | @glued more us hne =>
      cases body with
      | nil => cases hfull
      | cons t body =>
        obtain ⟨rfl, rfl⟩ := List.cons.inj hfull
        exact ⟨.word (k ++ more) :: body, .glued body hne, rfl⟩
  · rintro ⟨inner, h, rfl⟩
    cases h with
    | apart => exact .apart _
    | glued us hne => exact .glued _ hne

/-- A part in brackets is read if what follows its keyword is. -/
theorem Reads.bracketed {f : Nat → Reader α} (hf : ∀ n, Reads (f n) v (Closed S)) :
    Reads (token .opening >>= fun n => keyword keyword'.toList >>= fun _ => f n) v
      (Exactly fun b part => ∃ body, S b body ∧ Bracketed keyword' body part) := by
  refine (reads_token.skip fun n => reads_keyword.skip fun _ => hf n).congr ?_
  intro ts b rest
  constructor
  · rintro ⟨mid, rfl, mid', hk, body, hS, rfl⟩
    obtain ⟨inner, hinner, rfl⟩ := keyworded_append_closing_iff.mp hk
    refine ⟨Token.opening :: (inner ++ [Token.closing]), ⟨body, hS, inner, hinner, rfl⟩, ?_⟩
    simp
  · rintro ⟨part, ⟨body, hS, inner, hinner, rfl⟩, rfl⟩
    refine ⟨inner ++ .closing :: rest, by simp, body ++ .closing :: rest, ?_, body, hS, rfl⟩
    exact keyworded_append_closing_iff.mpr ⟨inner, hinner, rfl⟩

/-- What is read up to a closing parenthesis. -/
theorem Reads.closed {S : α → List Token → Prop} (hr : Reads r id P)
    (hP : ∀ ts a rest, P ts a (.closing :: rest) ↔ Closed S ts a rest) :
    Reads (r >>= fun a => token .closing >>= fun _ => pure a) id (Closed S) := by
  refine (hr.bind reads_return).congr fun ts a rest => ?_
  constructor
  · rintro ⟨a', mid, h, rfl, rfl⟩
    exact (hP ts a' rest).mp h
  · intro h
    exact ⟨a, .closing :: rest, (hP ts a rest).mpr h, rfl, rfl⟩

/-! ## Repetitions and choices -/

/-- A repetition ends where no further part follows. -/
theorem Reads.many (hr : Reads r v (Exactly S)) (hS : ∀ b part, S b part → part ≠ []) :
    Reads (many r) (List.map v) fun ts bs rest =>
      Exactly (InTurn S) ts bs rest ∧ ∀ b us, ¬Exactly S rest b us := by
  intro place ts bs rest
  -- every part takes tokens, so the induction is on how many are left
  induction hn : ts.length using Nat.strongRecOn generalizing place ts bs with
  | _ n ih =>
    rw [outcome_many]
    match ho : (r ⟨place, ts⟩).outcome with
    | none =>
      have hnone : ∀ b us, ¬Exactly S ts b us := fun b us => hr.of_outcome_none ho
      simp only [Option.elim_none, Option.some.injEq, Prod.mk.injEq, Cursor.mk.injEq]
      constructor
      · rintro ⟨as, place', ⟨rfl, -, rfl⟩, rfl⟩
        exact ⟨⟨[], .nil, rfl⟩, hnone⟩
      · rintro ⟨⟨part, hpart, rfl⟩, -⟩
        cases hpart with
        | nil => exact ⟨[], place, ⟨rfl, rfl, rfl⟩, rfl⟩
        | @cons b bs p q hb hbs =>
          exact absurd ⟨p, hb, List.append_assoc p q rest⟩ (hnone b (q ++ rest))
    | some (a, ⟨place', mid⟩) =>
      obtain ⟨part, hpart, hts⟩ : Exactly S ts (v a) mid := hr.of_outcome ho
      have hlen : mid.length < ts.length := hr.shrinks hS _ _ _ ho
      rw [Option.elim_some, if_pos hlen]
      have hmid := fun bs => ih mid.length (hn ▸ hlen) place' mid bs rfl
      constructor
      · rintro ⟨as, place'', has, rfl⟩
        obtain ⟨⟨as', c⟩, has', heq⟩ := Option.map_eq_some_iff.mp has
        cases heq
        obtain ⟨⟨q, hq, hmidq⟩, hend⟩ := (hmid (as'.map v)).mp ⟨as', place'', has', rfl⟩
        refine ⟨⟨part ++ q, .cons hpart hq, ?_⟩, hend⟩
        rw [hts, hmidq, List.append_assoc]
      · rintro ⟨⟨full, hfull, hts'⟩, hend⟩
        cases hfull with
        | nil =>
          rw [List.nil_append] at hts'
          exact absurd ⟨part, hpart, hts' ▸ hts⟩ (hend (v a) mid)
        | @cons b bs p q hb hbs =>
          have hfirst : Exactly S ts b (q ++ rest) := ⟨p, hb, by rw [hts', List.append_assoc]⟩
          obtain ⟨rfl, rfl⟩ := hr.eq_of_outcome ho hfirst
          obtain ⟨as, place'', has, rfl⟩ := (hmid bs).mpr ⟨⟨q, hbs, rfl⟩, hend⟩
          exact ⟨a :: as, place'', by rw [has, Option.map_some], rfl⟩

/-- A repetition up to a closing parenthesis, which begins no further part. -/
theorem Reads.many_closed {g : α → List Token} (hr : Reads r id (Exactly fun a part => part = g a))
    (hg : ∀ a us rest, Token.closing :: rest ≠ g a ++ us) :
    Reads (Reader.many r >>= fun as => token .closing >>= fun _ => pure as) id
      (Closed fun as body => body = as.flatMap g) := by
  have hne : ∀ a part, part = g a → part ≠ [] := by
    rintro a part rfl h
    exact hg a [.closing] [] (by rw [h, List.nil_append])
  have hmany := hr.many hne
  rw [List.map_id_fun] at hmany
  refine hmany.closed fun ts as rest => ?_
  constructor
  · rintro ⟨⟨part, hpart, rfl⟩, -⟩
    exact ⟨part, inTurn_eq_iff.mp hpart, rfl⟩
  · rintro ⟨body, rfl, rfl⟩
    refine ⟨⟨_, inTurn_eq_iff.mpr rfl, rfl⟩, ?_⟩
    rintro a us ⟨_, rfl, h⟩
    exact hg a us rest h

/-- A choice between parts of which none begins like one of the other kind. -/
theorem Reads.either (hr : Reads r v (Exactly S)) (hs : Reads s v (Exactly T))
    (hST : ∀ b p us b' q us', S b p → T b' q → p ++ us ≠ q ++ us') :
    Reads (either r s) v (Exactly fun b part => S b part ∨ T b part) := by
  intro place ts b rest
  simp only [outcome_either, Option.or_eq_some_iff]
  constructor
  · rintro ⟨a, place', ha | ⟨-, ha⟩, rfl⟩
    · obtain ⟨part, hpart, hts⟩ := hr.of_outcome ha
      exact ⟨part, .inl hpart, hts⟩
    · obtain ⟨part, hpart, hts⟩ := hs.of_outcome ha
      exact ⟨part, .inr hpart, hts⟩
  · rintro ⟨part, hpart | hpart, hts⟩
    · obtain ⟨a, place', ha, hv⟩ := (hr place ts b rest).mpr ⟨part, hpart, hts⟩
      exact ⟨a, place', .inl ha, hv⟩
    · obtain ⟨a, place', ha, hv⟩ := (hs place ts b rest).mpr ⟨part, hpart, hts⟩
      refine ⟨a, place', .inr ⟨?_, ha⟩, hv⟩
      rw [Option.eq_none_iff_forall_not_mem]
      rintro ⟨a', c'⟩ ha'
      obtain ⟨part', hpart', hts'⟩ := hr.of_outcome ha'
      exact hST _ part' c'.rest b part rest hpart' hpart (hts'.symm.trans hts)

/-- A part in brackets that may be left out, before something that does not begin like it. -/
theorem Reads.bind_optional {r : Reader (List α)} {f : Option (List α) → Reader β}
    {g : List α → List Token} {Q : List α → List Token → γ → List Token → Prop}
    (hr : Reads r id (Exactly fun as part => Bracketed keyword' (g as) part))
    (hf : ∀ o, Reads (f o) w (Q (o.getD []))) (hg : ∀ as, g as = [] ↔ as = [])
    (hQ : ∀ as ts b rest, Q as ts b rest →
      ∀ body part us, Bracketed keyword' body part → ts ≠ part ++ us) :
    Reads (optional r >>= f) w fun ts b rest => ∃ as part mid,
      Optionally keyword' (g as) part ∧ ts = part ++ mid ∧ Q as mid b rest := by
  intro place ts b rest
  simp only [outcome_bind, outcome_optional, Option.bind_some]
  match ho : (r ⟨place, ts⟩).outcome with
  | none =>
    have hnone : ∀ as us, ¬Exactly (fun as part => Bracketed keyword' (g as) part) ts as us :=
      fun as us => hr.of_outcome_none ho
    refine (hf none place ts b rest).trans ?_
    constructor
    · intro h
      exact ⟨[], [], ts, .inl ⟨(hg []).mpr rfl, rfl⟩, rfl, h⟩
    · rintro ⟨as, part, mid, ⟨has, rfl⟩ | hpart, hts, h⟩
      · rw [List.nil_append] at hts
        rw [(hg as).mp has] at h
        exact hts ▸ h
      · exact absurd ⟨part, hpart, hts⟩ (hnone as mid)
  | some (as, ⟨place', mid⟩) =>
    obtain ⟨part, hpart, hts⟩ := hr.of_outcome ho
    refine (hf (some as) place' mid b rest).trans ?_
    constructor
    · intro h
      exact ⟨as, part, mid, .inr hpart, hts, h⟩
    · rintro ⟨as', part', mid', ⟨has', rfl⟩ | hpart', hts', h⟩
      · rw [List.nil_append] at hts'
        exact absurd (hts'.symm.trans hts) (hQ as' mid' b rest h _ part mid hpart)
      · obtain ⟨rfl, rfl⟩ := hr.eq_of_outcome ho ⟨part', hpart', hts'⟩
        exact h

/-- A part in brackets that may be left out, at the end of what a parenthesis closes. -/
theorem Reads.optional_end {r : Reader (List α)} {g : List α → List Token}
    (hr : Reads r id (Exactly fun as part => Bracketed keyword' (g as) part))
    (hg : ∀ as, g as = [] ↔ as = []) (make : List α → Nat → β) (made : List α → γ)
    (hmake : ∀ as n, w (make as n) = made as) :
    Reads (optional r >>= fun o => token .closing >>= fun n => pure (make (o.getD []) n)) w
      fun ts b rest => ∃ as part mid, Optionally keyword' (g as) part ∧ ts = part ++ mid ∧
        mid = .closing :: rest ∧ made as = b := by
  refine hr.bind_optional (Q := fun as ts b rest => ts = .closing :: rest ∧ made as = b)
    (fun o => reads_end (hmake (o.getD []))) hg ?_
  rintro as ts b rest ⟨rfl, -⟩ body part us h
  exact h.append_ne_closing

/-- A part that lists things which are themselves read exactly. -/
theorem Reads.listing {g : α → List Token} (hr : Reads r id (Exactly fun a part => part = g a))
    (hg : ∀ a us rest, Token.closing :: rest ≠ g a ++ us) :
    Reads (token .opening >>= fun _ => keyword keyword'.toList >>= fun _ =>
        Reader.many r >>= fun as => token .closing >>= fun _ => pure as) id
      (Exactly fun as part => Bracketed keyword' (as.flatMap g) part) := by
  refine (Reads.bracketed fun _ => hr.many_closed hg).congr fun ts as rest => ?_
  simp only [Exactly, exists_eq_left]

/-- A part that holds one name. -/
theorem reads_naming :
    Reads (token .opening >>= fun _ => keyword keyword'.toList >>= fun _ =>
        Grammar.name >>= fun n => token .closing >>= fun _ => pure n) id
      (Exactly fun n part => Bracketed keyword' [n.token] part) := by
  have hclosed : Reads (Grammar.name >>= fun n => token .closing >>= fun _ => pure n) id
      (Closed fun n body => body = [n.token]) :=
    Reads.closed reads_name fun ts n rest => by simp [Closed]
  refine (Reads.bracketed fun _ => hclosed).congr fun ts n rest => ?_
  simp only [Exactly, exists_eq_left]

end Reader

/-! ## The grammar -/

namespace Grammar

open Reader

variable {body part us rest ts : List Token} {b b' : Definition}

theorem reads_name_exactly : Reads name id (Exactly fun n part => part = [n.token]) := by
  refine Reads.congr reads_name fun ts n rest => ?_
  simp only [Exactly, exists_eq_left, List.cons_append, List.nil_append]

theorem reads_nodes :
    Reads nodes id (Exactly fun ns part => Bracketed "nodes" (ns.map Name.token) part) := by
  refine ((Reads.listing reads_name_exactly (by simp [Name.token])).congr
    fun ts ns rest => ?_).tracked _
  simp only [List.map_eq_flatMap]

theorem reads_edge : Reads edge id (Exactly fun t part => part = t.tokens) := by
  refine ((Reads.skip reads_token fun _ => Reads.bind reads_name fun source =>
    Reads.bind reads_name fun label => Reads.bind reads_name fun target =>
      reads_return (Triple.mk source label target)).congr fun ts t rest => ?_).tracked .edge
  simp only [Exactly, exists_eq_left]
  constructor
  · rintro ⟨_, rfl, source, _, rfl, label, _, rfl, target, _, rfl, rfl, rfl⟩
    rfl
  · rintro rfl
    exact ⟨_, rfl, t.source, _, rfl, t.label, _, rfl, t.target, _, rfl, rfl, rfl⟩

theorem reads_edges :
    Reads edges id (Exactly fun es part => Bracketed "edges" (es.flatMap Triple.tokens) part) :=
  (Reads.listing reads_edge (by simp [Triple.tokens])).tracked .edges

theorem reads_domain : Reads domain id (Exactly fun n part => Bracketed "from" [n.token] part) :=
  Reads.tracked reads_naming .domain

theorem reads_codomain : Reads codomain id (Exactly fun n part => Bracketed "to" [n.token] part) :=
  Reads.tracked reads_naming .codomain

theorem reads_pair : Reads pair id (Exactly fun p part => part = imageTokens p) := by
  refine ((Reads.skip reads_token fun _ => Reads.bind reads_name fun label =>
    Reads.bind reads_name fun image => reads_return (label, image)).congr
      fun ts p rest => ?_).tracked .pair
  simp only [Exactly, exists_eq_left]
  constructor
  · rintro ⟨_, rfl, label, _, rfl, image, _, rfl, rfl, rfl⟩
    rfl
  · rintro rfl
    exact ⟨_, rfl, p.1, _, rfl, p.2, _, rfl, rfl, rfl⟩

theorem reads_map :
    Reads map id (Exactly fun ps part => Bracketed "map" (ps.flatMap imageTokens) part) :=
  (Reads.listing reads_pair (by simp [imageTokens])).tracked .map

/-! Names, edges and pairs use up tokens, so that a repetition of them ends. -/

theorem shrinks_name : Shrinks name :=
  Reads.shrinks reads_name_exactly fun n part hpart => by simp [hpart]

theorem shrinks_edge : Shrinks edge :=
  Reads.shrinks reads_edge fun t part hpart => by simp [hpart, Triple.tokens]

theorem shrinks_pair : Shrinks pair :=
  Reads.shrinks reads_pair fun p part hpart => by simp [hpart, imageTokens]

/-- What follows the keyword of a graph definition. -/
theorem reads_graph_body (opening : Nat) :
    Reads (name >>= fun called => optional nodes >>= fun ns => optional edges >>= fun es =>
        token .closing >>= fun closing =>
          pure ⟨.graph ⟨called, ns.getD [], es.getD []⟩, opening, closing⟩)
      PlacedDefinition.definition (Closed fun d body => ∃ g, d = .graph g ∧ g.HasBody body) := by
  have hnil : ∀ es : List Triple, es.flatMap Triple.tokens = [] ↔ es = [] := by
    intro es
    cases es <;> simp [Triple.tokens]
  have hedges := fun (called : Name) (ns : List Name) => Reads.optional_end reads_edges
    (w := PlacedDefinition.definition) hnil
    (fun es closing => ⟨.graph ⟨called, ns, es⟩, opening, closing⟩)
    (fun es => .graph ⟨called, ns, es⟩) fun _ _ => rfl
  have hnodes := fun called : Name => Reads.bind_optional reads_nodes
    (Q := fun ns ts d rest => ∃ es part mid, Optionally "edges" (es.flatMap Triple.tokens) part ∧
      ts = part ++ mid ∧ mid = .closing :: rest ∧ Definition.graph ⟨called, ns, es⟩ = d)
    (fun o => hedges called (o.getD [])) (by simp) ?_
  · refine (Reads.bind reads_name hnodes).congr fun ts d rest => ?_
    constructor
    · rintro ⟨n, _, rfl, ns, nodePart, _, hns, rfl, es, edgePart, _, hes, rfl, rfl, rfl⟩
      exact ⟨_, ⟨⟨n, ns, es⟩, rfl, nodePart, edgePart, hns, hes, rfl⟩, by simp⟩
    · rintro ⟨_, ⟨g, rfl, nodePart, edgePart, hns, hes, rfl⟩, rfl⟩
      exact ⟨g.name, _, rfl, g.nodes, nodePart, _, hns, List.append_assoc _ _ _, g.edges, edgePart,
        _, hes, rfl, rfl, rfl⟩
  · rintro ns ts d rest ⟨es, part, _, hes, rfl, rfl, -⟩ body part' us h
    exact hes.append_closing_ne h (by decide) (by decide)

theorem reads_graph : Reads graph PlacedDefinition.definition (Exactly fun d part =>
    ∃ body, (∃ g, d = .graph g ∧ g.HasBody body) ∧ Bracketed "graph" body part) :=
  (Reads.bracketed reads_graph_body).tracked .graph

/-- What follows the keyword of a morphism definition. -/
theorem reads_morphism_body (opening : Nat) :
    Reads (name >>= fun called => domain >>= fun source => codomain >>= fun target =>
        optional map >>= fun ps => token .closing >>= fun closing =>
          pure ⟨.morphism ⟨called, source, target, ps.getD []⟩, opening, closing⟩)
      PlacedDefinition.definition (Closed fun d body => ∃ m, d = .morphism m ∧ m.HasBody body) := by
  have hnil : ∀ ps : List (Name × Name), ps.flatMap imageTokens = [] ↔ ps = [] := by
    intro ps
    cases ps <;> simp [imageTokens]
  have hmap := fun called source target : Name => Reads.optional_end reads_map
    (w := PlacedDefinition.definition) hnil
    (fun ps closing => ⟨.morphism ⟨called, source, target, ps⟩, opening, closing⟩)
    (fun ps => .morphism ⟨called, source, target, ps⟩) fun _ _ => rfl
  refine (Reads.bind reads_name fun called => Reads.bind reads_domain fun source =>
    Reads.bind reads_codomain fun target => hmap called source target).congr fun ts d rest => ?_
  constructor
  · rintro ⟨n, _, rfl, source, _, ⟨p, hp, rfl⟩, target, _, ⟨q, hq, rfl⟩, ps, mapPart, _, hps, rfl,
      rfl, rfl⟩
    exact ⟨_, ⟨⟨n, source, target, ps⟩, rfl, p, q, mapPart, hp, hq, hps, rfl⟩, by simp⟩
  · rintro ⟨_, ⟨m, rfl, p, q, mapPart, hp, hq, hps, rfl⟩, rfl⟩
    exact ⟨m.name, _, rfl, m.domain, _, ⟨p, hp, by simp⟩, m.codomain, _, ⟨q, hq, rfl⟩, m.map,
      mapPart, _, hps, rfl, rfl, rfl⟩

theorem reads_morphism : Reads morphism PlacedDefinition.definition (Exactly fun d part =>
    ∃ body, (∃ m, d = .morphism m ∧ m.HasBody body) ∧ Bracketed "morphism" body part) :=
  (Reads.bracketed reads_morphism_body).tracked .morphism

/-- A definition is a graph or a morphism, and its keyword says which. -/
theorem reads_definition :
    Reads (either graph morphism) PlacedDefinition.definition (Exactly Spells) := by
  refine (Reads.either reads_graph reads_morphism ?_).congr fun ts d rest => ?_
  · rintro _ p us _ q us' ⟨_, -, h⟩ ⟨_, -, h'⟩
    exact h.append_ne h' (by decide) (by decide)
  · constructor
    · rintro ⟨part, ⟨body, ⟨g, rfl, hbody⟩, h⟩ | ⟨body, ⟨m, rfl, hbody⟩, h⟩, rfl⟩
      · exact ⟨part, .graph hbody h, rfl⟩
      · exact ⟨part, .morphism hbody h, rfl⟩
    · rintro ⟨part, h, rfl⟩
      cases h with
      | graph hbody h => exact ⟨part, .inl ⟨_, ⟨_, rfl, hbody⟩, h⟩, rfl⟩
      | morphism hbody h => exact ⟨part, .inr ⟨_, ⟨_, rfl, hbody⟩, h⟩, rfl⟩

theorem shrinks_definition : Shrinks (either graph morphism) :=
  Reads.shrinks reads_definition fun _ _ hpart => hpart.ne_nil

/-- The definitions of a document stand one after the other up to the end. -/
theorem reads_definitions :
    Reads definitions (List.map PlacedDefinition.definition)
      fun ts ds rest => InTurn Spells ds ts ∧ rest = [] := by
  have hmany := Reads.many reads_definition fun _ _ (h : Spells _ _) => h.ne_nil
  have hend := fun list : List PlacedDefinition => (Reads.tracked reads_noToken .endOfInput).skip
    fun _ => reads_pure (a := list) (v := List.map PlacedDefinition.definition) rfl
  refine (hmany.bind_shown
    (Q := fun ds ts ds' rest => ∃ mid, (ts = [] ∧ mid = []) ∧ ds = ds' ∧ mid = rest) hend).congr
      fun ts ds rest => ?_
  constructor
  · rintro ⟨ds', _, ⟨⟨part, hpart, rfl⟩, -⟩, _, ⟨rfl, rfl⟩, rfl, rfl⟩
    rw [List.append_nil]
    exact ⟨hpart, rfl⟩
  · rintro ⟨h, rfl⟩
    refine ⟨ds, [], ⟨⟨ts, h, (List.append_nil ts).symm⟩, ?_⟩, [], ⟨rfl, rfl⟩, rfl, rfl⟩
    rintro d us ⟨part, hpart, hnil⟩
    exact hpart.ne_nil (List.append_eq_nil_iff.mp hnil.symm).1

/-- If definitions are read, it is by the repetition of definitions. -/
theorem outcome_definitions {c c' : Cursor} {list : List PlacedDefinition}
    (h : (definitions c).outcome = some (list, c')) :
    ∃ c'', (many (either graph morphism) c).outcome = some (list, c'') := by
  obtain ⟨list', c'', hmany⟩ := exists_outcome_many (either graph morphism) c
  rw [definitions, outcome_bind, hmany, Option.bind_some, outcome_bind, Option.bind_eq_some_iff] at h
  obtain ⟨x, -, hx⟩ := h
  cases hx
  exact ⟨c'', hmany⟩

/-- If no definitions are read, the end of the text is missing where the repetition of definitions ends. -/
theorem failures_definitions {c : Cursor} (h : (definitions c).outcome = none) :
    ∃ list c', (many (either graph morphism) c).outcome = some (list, c') ∧
      ⟨c'.place, .endOfInput⟩ ∈ (definitions c).failures := by
  obtain ⟨list, c', hmany⟩ := exists_outcome_many (either graph morphism) c
  refine ⟨list, c', hmany, ?_⟩
  have hend : (tracked .endOfInput noToken c').outcome = none := by
    rw [definitions, outcome_bind, hmany, Option.bind_some, outcome_bind, Option.bind_eq_none_iff] at h
    refine Option.eq_none_iff_forall_not_mem.mpr fun x hx => ?_
    cases h x hx
  have hlast : ⟨c'.place, .endOfInput⟩ ∈ (tracked .endOfInput noToken c').failures := by
    rw [outcome_tracked] at hend
    rw [failures_tracked, hend, Option.elim_none]
    exact List.mem_append_right _ List.mem_cons_self
  rw [definitions, failures_bind, hmany, Option.elim_some, failures_bind]
  exact List.mem_append_right _ (List.mem_append_left _ hlast)

end Grammar

theorem readDefinitions_eq_ok {ts : List Token} {list : List PlacedDefinition} :
    readDefinitions ts = .ok list ↔
      ∃ c, (Grammar.definitions ⟨Place.first, ts⟩).outcome = some (list, c) := by
  rw [readDefinitions]
  rcases Grammar.definitions ⟨Place.first, ts⟩ with ⟨failures, _ | ⟨list', c⟩⟩
  · simp
  · simp

theorem readDefinitions_eq_error {ts : List Token} {failures : List Failure} :
    readDefinitions ts = .error failures ↔
      Grammar.definitions ⟨Place.first, ts⟩ = ⟨failures, none⟩ := by
  rw [readDefinitions]
  rcases Grammar.definitions ⟨Place.first, ts⟩ with ⟨failures', _ | ⟨list, c⟩⟩
  · simp
  · simp

/-- **Definitions are read if and only if they are spelt.** -/
theorem readDefinitions_eq_ok_iff {ts : List Token} {ds : List Definition} :
    (∃ list, readDefinitions ts = .ok list ∧ list.map PlacedDefinition.definition = ds) ↔
      InTurn Spells ds ts := by
  simp only [readDefinitions_eq_ok]
  constructor
  · rintro ⟨list, ⟨c, hc⟩, rfl⟩
    exact (Grammar.reads_definitions.of_outcome hc).1
  · intro h
    obtain ⟨list, place, hlist, hds⟩ := (Grammar.reads_definitions Place.first ts ds []).mpr ⟨h, rfl⟩
    exact ⟨list, ⟨⟨place, []⟩, hlist⟩, hds⟩

end GraphHom
