import GraphHom.Proofs.Document.Places
import GraphHom.Proofs.Document.Reading

/-!
# Failures lie where a document may go on

A reader keeps to a language (`Reader.KeepsTo`) if what it reads is in the language and, wherever something
fails, also on a path that is given up later, the tokens from the start up to the failure can be continued to
tokens in the language. This is kept by every way of composing, because what comes next can always be
completed: that it can is part of the definition.

A keyword that is written as one word with the name after it takes care: the place of a failure may lie
inside that word, and then the tokens up to the failure end with the characters of the keyword
(`Reader.KeepsTo.keyworded`).

So, wherever a reading of definitions fails, the tokens before can be continued to those of definitions
(`Grammar.exists_continuation`).
-/

namespace GraphHom

/-! ## Tokens that can be written -/

/-- The tokens are those of a text. -/
def Written (ts : List Token) : Prop := ∃ cs, tokens cs = ts

theorem written_nil : Written [] := ⟨[], tokens_nil⟩

theorem written_opening : Written [.opening] := ⟨['('], by rw [tokens_opening, tokens_nil]⟩

theorem written_closing : Written [.closing] := ⟨[')'], by rw [tokens_closing, tokens_nil]⟩

theorem written_word {w : List Char} (hne : w ≠ []) (hw : ∀ c ∈ w, isWordChar c) : Written [.word w] := by
  have h : tokens (w ++ []) = .word w :: tokens [] := tokens_word_append hne hw (by simp)
  rw [tokens_nil] at h
  exact ⟨_, h⟩

theorem Written.append {ts us : List Token} (h : Written ts) (h' : Written us) : Written (ts ++ us) := by
  obtain ⟨cs, rfl⟩ := h
  obtain ⟨ds, rfl⟩ := h'
  exact ⟨_, tokens_append_newline cs ds⟩

namespace Reader

variable {α β : Type} {c c' c'' : Cursor} {part part' mid more ts : List Token} {q : Place} {t : Token}

/-! ## On the way from a cursor -/

/-- From `c` on, the whole tokens `part` lead to `c'`. -/
inductive Passes : Cursor → List Token → Cursor → Prop
  /-- No tokens. -/
  | nil (c : Cursor) : Passes c [] c
  /-- A token, then others. -/
  | cons {p : Place} {t : Token} {ts part : List Token} {c' : Cursor}
      (h : Passes ⟨⟨p.token + 1, 0⟩, ts⟩ part c') : Passes ⟨p, t :: ts⟩ (t :: part) c'

/-- From `c` on, the tokens `mid` lead to the place `q`, which may lie inside a word; then only the
characters of the word before the place are in `mid`. -/
inductive Reaches : Cursor → List Token → Place → Prop
  /-- The place is where the cursor stands. -/
  | here (c : Cursor) : Reaches c [] c.place
  /-- The place lies after the next token. -/
  | token {p q : Place} {t : Token} {ts mid : List Token}
      (h : Reaches ⟨⟨p.token + 1, 0⟩, ts⟩ mid q) : Reaches ⟨p, t :: ts⟩ (t :: mid) q
  /-- The place lies inside the next token. -/
  | inside {p : Place} {w more : List Char} {ts : List Token} (hw : w ≠ []) (hmore : more ≠ []) :
      Reaches ⟨p, .word (w ++ more) :: ts⟩ [.word w] ⟨p.token, p.offset + w.length⟩

theorem Passes.trans (h : Passes c part c') (h' : Passes c' part' c'') :
    Passes c (part ++ part') c'' := by
  induction h with
  | nil => exact h'
  | cons _ ih => exact .cons (ih h')

theorem Passes.reaches (h : Passes c part c') (h' : Reaches c' mid q) : Reaches c (part ++ mid) q := by
  induction h with
  | nil => exact h'
  | cons _ ih => exact .token (ih h')

/-- Whole tokens lead to the place with as many tokens more before it. -/
theorem Passes.place_eq (h : Passes c part c') (hc : c.place.offset = 0) :
    c'.place = ⟨c.place.token + part.length, 0⟩ ∧ c.rest = part ++ c'.rest := by
  induction h with
  | nil c => exact ⟨by rw [← hc]; rfl, rfl⟩
  | @cons p t ts part c' _ ih =>
    obtain ⟨hplace, hrest⟩ := ih rfl
    refine ⟨?_, congrArg (t :: ·) hrest⟩
    rw [hplace, List.length_cons]
    simp only [Place.mk.injEq, and_true]
    omega

/-- What leads to a place from before all tokens is what stands before the place. -/
theorem Reaches.eq_tokensTo (h : Reaches c mid q) {n : Nat} (hc : c.place = ⟨n, 0⟩) :
    ∃ k, q.token = n + k ∧ mid = tokensTo c.rest ⟨k, q.offset⟩ := by
  induction h generalizing n with
  | here c =>
    rw [hc]
    exact ⟨0, rfl, rfl⟩
  | @token p q t ts mid h ih =>
    obtain ⟨k, hk, rfl⟩ := ih (n := p.token + 1) rfl
    obtain rfl : p = ⟨n, 0⟩ := hc
    refine ⟨k + 1, by rw [hk]; simp only; omega, ?_⟩
    simp only [tokensTo, List.take_succ_cons, List.drop_succ_cons, List.cons_append]
  | @inside p w more ts hw hmore =>
    obtain rfl : p = ⟨n, 0⟩ := hc
    refine ⟨0, rfl, ?_⟩
    have hlen : ¬0 + w.length = 0 := by
      rw [Nat.zero_add]
      exact fun hzero => hw (List.length_eq_zero_iff.mp hzero)
    simp [tokensTo, hw, Token.firstChars]

/-! ## Readers that keep to a language -/

/-- What is read is in `S`, and wherever something fails, `S` has a continuation of the tokens up to there.
In itself `S` has tokens of some text. -/
structure KeepsTo (r : Reader α) (S : α → List Token → Prop) : Prop where
  /-- Something in `S` can be written. -/
  completable : ∃ a more, Written more ∧ S a more
  /-- What is read is in `S`. -/
  passes : ∀ c a c', (r c).outcome = some (a, c') → ∃ part, S a part ∧ Passes c part c'
  /-- Up to a failure, `S` can go on. -/
  fails : ∀ c, ∀ x ∈ (r c).failures, ∃ a mid more,
    Reaches c mid x.place ∧ Written more ∧ S a (mid ++ more)

variable {r s : Reader α} {f : α → Reader β} {S S' : α → List Token → Prop}
  {T : α → β → List Token → Prop}

theorem KeepsTo.mono (h : KeepsTo r S) (hS : ∀ a part, S a part → S' a part) : KeepsTo r S' where
  completable := by
    obtain ⟨a, more, hmore, ha⟩ := h.completable
    exact ⟨a, more, hmore, hS a more ha⟩
  passes c a c' ho := by
    obtain ⟨part, hpart, hpasses⟩ := h.passes c a c' ho
    exact ⟨part, hS a part hpart, hpasses⟩
  fails c x hx := by
    obtain ⟨a, mid, more, hmid, hmore, ha⟩ := h.fails c x hx
    exact ⟨a, mid, more, hmid, hmore, hS a _ ha⟩

/-- Something of `S` with a value `a`, then something of `T a`. -/
def AndThen (S : α → List Token → Prop) (T : α → β → List Token → Prop) (b : β)
    (part : List Token) : Prop :=
  ∃ a p q, S a p ∧ T a b q ∧ part = p ++ q

/-- Nothing, or something of `S`. -/
def Maybe (S : α → List Token → Prop) (o : Option α) (part : List Token) : Prop :=
  (o = none ∧ part = []) ∨ ∃ a, o = some a ∧ S a part

theorem keepsTo_pure (a : α) : KeepsTo (pure a) fun b part => b = a ∧ part = [] where
  completable := ⟨a, [], written_nil, rfl, rfl⟩
  passes c b c' ho := by
    rw [outcome_pure] at ho
    cases ho
    exact ⟨[], ⟨rfl, rfl⟩, .nil c⟩
  fails c x hx := by cases hx

theorem KeepsTo.bind (hr : KeepsTo r S) (hf : ∀ a, KeepsTo (f a) (T a)) :
    KeepsTo (r >>= f) (AndThen S T) where
  completable := by
    obtain ⟨a, p, hp, ha⟩ := hr.completable
    obtain ⟨b, q, hq, hb⟩ := (hf a).completable
    exact ⟨b, p ++ q, hp.append hq, a, p, q, ha, hb, rfl⟩
  passes c b c'' ho := by
    rw [outcome_bind, Option.bind_eq_some_iff] at ho
    obtain ⟨⟨a, c'⟩, ha, hb⟩ := ho
    obtain ⟨p, hp, hpasses⟩ := hr.passes c a c' ha
    obtain ⟨q, hq, hpasses'⟩ := (hf a).passes c' b c'' hb
    exact ⟨p ++ q, ⟨a, p, q, hp, hq, rfl⟩, hpasses.trans hpasses'⟩
  fails c x hx := by
    rw [failures_bind, List.mem_append] at hx
    rcases hx with hx | hx
    · obtain ⟨a, mid, more, hmid, hmore, ha⟩ := hr.fails c x hx
      obtain ⟨b, q, hq, hb⟩ := (hf a).completable
      exact ⟨b, mid, more ++ q, hmid, hmore.append hq, a, mid ++ more, q, ha, hb,
        (List.append_assoc mid more q).symm⟩
    · match ho : (r c).outcome with
      | none =>
        rw [ho] at hx
        cases hx
      | some (a, c') =>
        rw [ho, Option.elim_some] at hx
        obtain ⟨p, hp, hpasses⟩ := hr.passes c a c' ho
        obtain ⟨b, mid, more, hmid, hmore, hb⟩ := (hf a).fails c' x hx
        exact ⟨b, p ++ mid, more, hpasses.reaches hmid, hmore, a, p, mid ++ more, hp, hb,
          List.append_assoc p mid more⟩

theorem KeepsTo.tracked (h : KeepsTo r S) (k : Construct) : KeepsTo (tracked k r) S where
  completable := h.completable
  passes c a c' ho := by
    rw [outcome_tracked] at ho
    exact h.passes c a c' ho
  fails c x hx := by
    rw [failures_tracked, List.mem_append] at hx
    rcases hx with hx | hx
    · exact h.fails c x hx
    · match ho : (r c).outcome with
      | some _ =>
        rw [ho] at hx
        cases hx
      | none =>
        rw [ho, Option.elim_none, List.mem_singleton] at hx
        obtain ⟨a, more, hmore, ha⟩ := h.completable
        rw [hx]
        exact ⟨a, [], more, .here c, hmore, ha⟩

theorem KeepsTo.optional (h : KeepsTo r S) : KeepsTo (optional r) (Maybe S) where
  completable := ⟨none, [], written_nil, .inl ⟨rfl, rfl⟩⟩
  passes c o c' ho := by
    rw [outcome_optional, Option.some.injEq] at ho
    match hr : (r c).outcome with
    | none =>
      rw [hr] at ho
      cases ho
      exact ⟨[], .inl ⟨rfl, rfl⟩, .nil c⟩
    | some (a, c'') =>
      rw [hr] at ho
      cases ho
      obtain ⟨part, hpart, hpasses⟩ := h.passes c a c'' hr
      exact ⟨part, .inr ⟨a, rfl, hpart⟩, hpasses⟩
  fails c x hx := by
    rw [failures_optional] at hx
    obtain ⟨a, mid, more, hmid, hmore, ha⟩ := h.fails c x hx
    exact ⟨some a, mid, more, hmid, hmore, .inr ⟨a, rfl, ha⟩⟩

theorem KeepsTo.either (hr : KeepsTo r S) (hs : KeepsTo s S) : KeepsTo (either r s) S where
  completable := hr.completable
  passes c a c' ho := by
    rw [outcome_either, Option.or_eq_some_iff] at ho
    rcases ho with ho | ⟨-, ho⟩
    · exact hr.passes c a c' ho
    · exact hs.passes c a c' ho
  fails c x hx := by
    rw [failures_either, List.mem_append] at hx
    rcases hx with hx | hx
    · exact hr.fails c x hx
    · match ho : (r c).outcome with
      | some _ =>
        rw [ho] at hx
        cases hx
      | none =>
        rw [ho, Option.elim_none] at hx
        exact hs.fails c x hx

theorem KeepsTo.many (h : KeepsTo r S) : KeepsTo (many r) (InTurn S) where
  completable := ⟨[], [], written_nil, .nil⟩
  passes c as c' ho := by
    induction hn : c.rest.length using Nat.strongRecOn generalizing c as c' with
    | _ n ih =>
      rw [outcome_many] at ho
      match hr : (r c).outcome with
      | none =>
        rw [hr] at ho
        cases ho
        exact ⟨[], .nil, .nil c⟩
      | some (a, c₁) =>
        obtain ⟨part, hpart, hpasses⟩ := h.passes c a c₁ hr
        rw [hr, Option.elim_some] at ho
        split at ho
        · rename_i hlen
          obtain ⟨⟨as', c₂⟩, hmany, heq⟩ := Option.map_eq_some_iff.mp ho
          cases heq
          obtain ⟨ts, hts, hpasses'⟩ := ih c₁.rest.length (hn ▸ hlen) c₁ as' c₂ hmany rfl
          exact ⟨part ++ ts, .cons hpart hts, hpasses.trans hpasses'⟩
        · cases ho
          exact ⟨part ++ [], .cons hpart .nil, (List.append_nil part).symm ▸ hpasses⟩
  fails c x hx := by
    induction hn : c.rest.length using Nat.strongRecOn generalizing c with
    | _ n ih =>
      rw [failures_many, List.mem_append] at hx
      rcases hx with hx | hx
      · obtain ⟨a, mid, more, hmid, hmore, ha⟩ := h.fails c x hx
        exact ⟨[a], mid, more ++ [], hmid, hmore.append written_nil,
          List.append_assoc mid more [] ▸ .cons ha .nil⟩
      · match ho : (r c).outcome with
        | none =>
          rw [ho] at hx
          cases hx
        | some (a, c₁) =>
          rw [ho, Option.elim_some] at hx
          split at hx
          · rename_i hlen
            obtain ⟨part, hpart, hpasses⟩ := h.passes c a c₁ ho
            obtain ⟨as, mid, more, hmid, hmore, has⟩ := ih c₁.rest.length (hn ▸ hlen) c₁ hx rfl
            exact ⟨a :: as, part ++ mid, more, hpasses.reaches hmid, hmore,
              (List.append_assoc part mid more).symm ▸ .cons hpart has⟩
          · cases hx

/-! ## Single tokens -/

theorem keepsTo_token (ht : Written [t]) : KeepsTo (token t) fun _ part => part = [t] where
  completable := ⟨0, [t], ht, rfl⟩
  passes c n c' ho := by
    obtain ⟨p, rest⟩ := c
    cases rest with
    | nil => cases ho
    | cons u rest =>
      by_cases hu : u = t
      · subst hu
        rw [token] at ho
        simp only [if_true, Option.some.injEq, Prod.mk.injEq] at ho
        obtain ⟨-, rfl⟩ := ho
        exact ⟨[u], rfl, .cons (.nil _)⟩
      · simp [token, hu] at ho
  fails c x hx := by
    rw [failures_token] at hx
    cases hx

theorem keepsTo_noToken : KeepsTo noToken fun _ part => part = [] where
  completable := ⟨(), [], written_nil, rfl⟩
  passes c u c' ho := by
    rw [noToken] at ho
    split at ho
    · cases ho
      exact ⟨[], rfl, .nil c⟩
    · cases ho
  fails c x hx := by
    rw [failures_noToken] at hx
    cases hx

theorem keepsTo_name : KeepsTo Grammar.name fun n part => part = [n.token] := by
  have hx : Written [Name.token ⟨String.ofList ['x']⟩] := by
    rw [Name.token, String.toList_ofList]
    refine written_word (List.cons_ne_nil 'x' []) fun c hc => ?_
    rw [List.mem_singleton.mp hc]
    rfl
  refine KeepsTo.tracked ⟨⟨⟨String.ofList ['x']⟩, _, hx, rfl⟩, fun c n c' ho => ?_,
    fun c x hx => ?_⟩ .name
  · obtain ⟨p, _ | ⟨_ | _ | chars, rest⟩⟩ := c
    · cases ho
    · cases ho
    · cases ho
    · cases ho
      refine ⟨_, rfl, ?_⟩
      rw [Name.token, String.toList_ofList]
      exact .cons (.nil _)
  · rw [failures_word] at hx
    cases hx

/-- What a keyword is read from: a word it begins, of which the rest, if any, is read next. -/
theorem of_outcome_keyword {k : List Char} {u : Unit} (h : (keyword k c).outcome = some (u, c')) :
    ∃ p more ts, c = ⟨p, .word (k ++ more) :: ts⟩ ∧
      ((more = [] ∧ c' = ⟨⟨p.token + 1, 0⟩, ts⟩) ∨
        (more ≠ [] ∧ c' = ⟨⟨p.token, p.offset + k.length⟩, .word more :: ts⟩)) := by
  obtain ⟨p, _ | ⟨_ | _ | w, rest⟩⟩ := c
  · cases h
  · cases h
  · cases h
  · simp only [keyword] at h
    rcases hw : k.isPrefixOf? w with _ | _ | ⟨d, more⟩
    · rw [hw] at h
      cases h
    · rw [hw] at h
      cases h
      obtain rfl := List.isPrefixOf?_eq_some_iff_append_eq.mp hw
      exact ⟨p, [], rest, rfl, .inl ⟨rfl, rfl⟩⟩
    · rw [hw] at h
      cases h
      obtain rfl := List.isPrefixOf?_eq_some_iff_append_eq.mp hw
      exact ⟨p, d :: more, rest, rfl, .inr ⟨List.cons_ne_nil d more, rfl⟩⟩

/-- A keyword in front of what `S` describes, which may be written as one word with the first word of it. -/
theorem KeepsTo.keyworded {k : List Char} (h : KeepsTo r S) (hne : k ≠ []) (hk : ∀ c ∈ k, isWordChar c)
    (hS : ∀ a part, S a part → part ≠ []) :
    KeepsTo (keyword k >>= fun _ => r) fun a part => ∃ body, S a body ∧ Keyworded k body part where
  completable := by
    obtain ⟨a, more, hmore, ha⟩ := h.completable
    exact ⟨a, [.word k] ++ more, (written_word hne hk).append hmore, more, ha, .apart more⟩
  passes c a c'' ho := by
    rw [outcome_bind, Option.bind_eq_some_iff] at ho
    obtain ⟨⟨u, c'⟩, hu, ha⟩ := ho
    obtain ⟨part, hpart, hpasses⟩ := h.passes c' a c'' ha
    obtain ⟨p, more, ts, rfl, ⟨rfl, rfl⟩ | ⟨hmore, rfl⟩⟩ := of_outcome_keyword hu
    · rw [List.append_nil]
      exact ⟨.word k :: part, ⟨part, hpart, .apart part⟩, .cons hpasses⟩
    · cases hpasses with
      | nil => exact absurd rfl (hS a [] hpart)
      | @cons _ _ _ part _ hpasses =>
        exact ⟨.word (k ++ more) :: part, ⟨_, hpart, .glued part hmore⟩, .cons hpasses⟩
  fails c x hx := by
    rw [failures_bind, failures_keyword, List.nil_append] at hx
    match ho : (keyword k c).outcome with
    | none =>
      rw [ho] at hx
      cases hx
    | some (u, c') =>
      rw [ho, Option.elim_some] at hx
      obtain ⟨a, mid, rest, hmid, hrest, ha⟩ := h.fails c' x hx
      obtain ⟨p, more, ts, rfl, ⟨rfl, rfl⟩ | ⟨hmore, rfl⟩⟩ := of_outcome_keyword ho
      · rw [List.append_nil]
        exact ⟨a, .word k :: mid, rest, .token hmid, hrest, _, ha, .apart _⟩
      · -- the failure may lie right after the keyword, after the word, or inside the rest of the word
        generalize hq : x.place = q at hmid
        cases hmid with
        | here => exact ⟨a, [.word k], rest, .inside hne hmore, hrest, _, ha, .apart _⟩
        | @token _ _ _ _ mid hmid =>
          exact ⟨a, .word (k ++ more) :: mid, rest, .token hmid, hrest, _, ha, .glued _ hmore⟩
        | @inside _ w more' _ hw hmore' =>
          have hkw : k ++ w ≠ [] := fun h => hne (List.append_eq_nil_iff.mp h).1
          have hplace : Reaches ⟨p, .word (k ++ w ++ more') :: ts⟩ [.word (k ++ w)]
              ⟨p.token, p.offset + (k ++ w).length⟩ := .inside hkw hmore'
          rw [List.length_append, ← Nat.add_assoc, List.append_assoc] at hplace
          exact ⟨a, [.word (k ++ w)], rest, hplace, hrest, _, ha, .glued _ hw⟩

/-! ## Parts in brackets -/

/-- The closing parenthesis at the end of a part, after which a value is put together. -/
theorem keepsTo_end {g : Nat → β} : KeepsTo (token .closing >>= fun n => pure (g n)) fun b part =>
    (∃ n, b = g n) ∧ part = [.closing] := by
  refine ((keepsTo_token written_closing).bind fun n => keepsTo_pure (g n)).mono ?_
  rintro _ _ ⟨n, _, _, rfl, ⟨rfl, rfl⟩, rfl⟩
  exact ⟨⟨n, rfl⟩, rfl⟩

/-- What is read before a closing parenthesis. -/
theorem KeepsTo.closed (h : KeepsTo r S) :
    KeepsTo (r >>= fun a => token .closing >>= fun _ => pure a) fun a part =>
      ∃ body, S a body ∧ part = body ++ [.closing] := by
  refine (h.bind fun a => keepsTo_end (g := fun _ => a)).mono ?_
  rintro _ _ ⟨a, body, _, hbody, ⟨⟨_, rfl⟩, rfl⟩, rfl⟩
  exact ⟨body, hbody, rfl⟩

/-- `( KEYWORD body )` -/
theorem KeepsTo.bracketed {f : Nat → Reader α} {kw : String} (hne : kw.toList ≠ [])
    (hkw : kw.toList.all isWordChar)
    (hf : ∀ n, KeepsTo (f n) fun a part => ∃ body, S a body ∧ part = body ++ [.closing]) :
    KeepsTo (token .opening >>= fun n => keyword kw.toList >>= fun _ => f n) fun a part =>
      ∃ body, S a body ∧ Bracketed kw body part := by
  refine ((keepsTo_token written_opening).bind fun n =>
    (hf n).keyworded hne (List.all_eq_true.mp hkw) ?_).mono ?_
  · rintro a _ ⟨body, -, rfl⟩
    exact List.append_ne_nil_of_right_ne_nil body (List.cons_ne_nil _ _)
  · rintro a _ ⟨_, _, part, rfl, ⟨_, ⟨body, hbody, rfl⟩, hpart⟩, rfl⟩
    obtain ⟨inner, hinner, rfl⟩ := keyworded_append_closing_iff.mp hpart
    exact ⟨body, hbody, inner, hinner, rfl⟩

/-- `( KEYWORD X* )` -/
theorem KeepsTo.listing {g : α → List Token} {kw : String} (hne : kw.toList ≠ [])
    (hkw : kw.toList.all isWordChar) (h : KeepsTo r fun a part => part = g a) :
    KeepsTo (token .opening >>= fun _ => keyword kw.toList >>= fun _ =>
        Reader.many r >>= fun as => token .closing >>= fun _ => pure as)
      fun as part => Bracketed kw (as.flatMap g) part := by
  refine (KeepsTo.bracketed hne hkw fun _ => h.many.closed).mono ?_
  rintro as part ⟨body, hbody, hpart⟩
  exact inTurn_eq_iff.mp hbody ▸ hpart

/-- `( KEYWORD NAME )` -/
theorem keepsTo_naming {kw : String} (hne : kw.toList ≠ []) (hkw : kw.toList.all isWordChar) :
    KeepsTo (token .opening >>= fun _ => keyword kw.toList >>= fun _ =>
        Grammar.name >>= fun n => token .closing >>= fun _ => pure n)
      fun n part => Bracketed kw [n.token] part := by
  refine (KeepsTo.bracketed hne hkw fun _ => KeepsTo.closed keepsTo_name).mono ?_
  rintro n part ⟨body, rfl, hpart⟩
  exact hpart

/-- A part in brackets that may be left out. -/
theorem optionally_of_maybe {kw : String} {g : List α → List Token} {o : Option (List α)}
    {part : List Token} (h : Maybe (fun as part => Bracketed kw (g as) part) o part)
    (hg : g [] = []) : Optionally kw (g (o.getD [])) part := by
  rcases h with ⟨rfl, rfl⟩ | ⟨as, rfl, hpart⟩
  · exact .inl ⟨hg, rfl⟩
  · exact .inr hpart

end Reader

/-! ## The grammar -/

namespace Grammar

open Reader

theorem keepsTo_nodes : KeepsTo nodes fun ns part => Bracketed "nodes" (ns.map Name.token) part := by
  refine KeepsTo.tracked ?_ .nodes
  refine (KeepsTo.listing (by decide) (by decide) keepsTo_name).mono fun ns part hpart => ?_
  rw [List.map_eq_flatMap]
  exact hpart

theorem keepsTo_edge : KeepsTo edge fun t part => part = t.tokens := by
  refine KeepsTo.tracked ?_ .edge
  refine ((keepsTo_token written_opening).bind fun _ => KeepsTo.bind keepsTo_name fun source =>
    KeepsTo.bind keepsTo_name fun label => KeepsTo.bind keepsTo_name fun target =>
      keepsTo_end (g := fun _ => (⟨source, label, target⟩ : Triple))).mono ?_
  rintro _ _ ⟨_, _, _, rfl, ⟨source, _, _, rfl, ⟨label, _, _, rfl, ⟨target, _, _, rfl,
    ⟨⟨_, rfl⟩, rfl⟩, rfl⟩, rfl⟩, rfl⟩, rfl⟩
  rfl

theorem keepsTo_edges :
    KeepsTo edges fun es part => Bracketed "edges" (es.flatMap Triple.tokens) part :=
  (KeepsTo.listing (by decide) (by decide) keepsTo_edge).tracked .edges

theorem keepsTo_domain : KeepsTo domain fun n part => Bracketed "from" [n.token] part :=
  (keepsTo_naming (by decide) (by decide)).tracked .domain

theorem keepsTo_codomain : KeepsTo codomain fun n part => Bracketed "to" [n.token] part :=
  (keepsTo_naming (by decide) (by decide)).tracked .codomain

theorem keepsTo_pair : KeepsTo pair fun p part => part = imageTokens p := by
  refine KeepsTo.tracked ?_ .pair
  refine ((keepsTo_token written_opening).bind fun _ => KeepsTo.bind keepsTo_name fun label =>
    KeepsTo.bind keepsTo_name fun image => keepsTo_end (g := fun _ => (label, image))).mono ?_
  rintro _ _ ⟨_, _, _, rfl, ⟨label, _, _, rfl, ⟨image, _, _, rfl, ⟨⟨_, rfl⟩, rfl⟩, rfl⟩, rfl⟩, rfl⟩
  rfl

theorem keepsTo_map :
    KeepsTo map fun ps part => Bracketed "map" (ps.flatMap imageTokens) part :=
  (KeepsTo.listing (by decide) (by decide) keepsTo_pair).tracked .map

theorem keepsTo_graph : KeepsTo graph fun d part => Spells d.definition part := by
  refine KeepsTo.tracked ?_ .graph
  refine (KeepsTo.bracketed (S := fun d body => ∃ g, d.definition = .graph g ∧ g.HasBody body)
    (by decide) (by decide) fun opening => ?_).mono ?_
  · refine (KeepsTo.bind keepsTo_name fun called => (KeepsTo.optional keepsTo_nodes).bind fun ns =>
      (KeepsTo.optional keepsTo_edges).bind fun es => keepsTo_end (g := fun closing => (⟨.graph ⟨called,
        ns.getD [], es.getD []⟩, opening, closing⟩ : PlacedDefinition))).mono ?_
    rintro _ _ ⟨called, _, _, rfl, ⟨ns, p, _, hns, ⟨es, q, _, hes, ⟨⟨closing, rfl⟩, rfl⟩, rfl⟩, rfl⟩,
      rfl⟩
    refine ⟨called.token :: (p ++ q), ⟨_, rfl, p, q, ?_, ?_, rfl⟩, by simp⟩
    · exact optionally_of_maybe (g := List.map Name.token) hns rfl
    · exact optionally_of_maybe (g := List.flatMap Triple.tokens) hes rfl
  · rintro d part ⟨body, ⟨g, hd, hbody⟩, hpart⟩
    rw [hd]
    exact .graph hbody hpart

theorem keepsTo_morphism : KeepsTo morphism fun d part => Spells d.definition part := by
  refine KeepsTo.tracked ?_ .morphism
  refine (KeepsTo.bracketed (S := fun d body => ∃ m, d.definition = .morphism m ∧ m.HasBody body)
    (by decide) (by decide) fun opening => ?_).mono ?_
  · refine (KeepsTo.bind keepsTo_name fun called => KeepsTo.bind keepsTo_domain fun source =>
      KeepsTo.bind keepsTo_codomain fun target => (KeepsTo.optional keepsTo_map).bind fun ps =>
        keepsTo_end (g := fun closing => (⟨.morphism ⟨called, source, target, ps.getD []⟩, opening,
          closing⟩ : PlacedDefinition))).mono ?_
    rintro _ _ ⟨called, _, _, rfl, ⟨source, p, _, hp, ⟨target, q, _, hq, ⟨ps, r, _, hps,
      ⟨⟨closing, rfl⟩, rfl⟩, rfl⟩, rfl⟩, rfl⟩, rfl⟩
    refine ⟨called.token :: (p ++ (q ++ r)), ⟨_, rfl, p, q, r, hp, hq, ?_, rfl⟩, by simp⟩
    exact optionally_of_maybe (g := List.flatMap imageTokens) hps rfl
  · rintro d part ⟨body, ⟨m, hd, hbody⟩, hpart⟩
    rw [hd]
    exact .morphism hbody hpart

theorem keepsTo_definitions :
    KeepsTo definitions (InTurn fun d part => Spells d.definition part) := by
  refine ((KeepsTo.either keepsTo_graph keepsTo_morphism).many.bind fun list =>
    (KeepsTo.tracked keepsTo_noToken .endOfInput).bind fun _ => keepsTo_pure list).mono ?_
  rintro _ _ ⟨list, part, _, hpart, ⟨_, _, _, rfl, ⟨rfl, rfl⟩, rfl⟩, rfl⟩
  rw [List.append_nil, List.append_nil]
  exact hpart

/-- Wherever something fails while definitions are read, the tokens before can be continued to definitions,
and the continuation can be written. -/
theorem exists_continuation {ts : List Token} {x : Failure}
    (hx : x ∈ (definitions ⟨Place.first, ts⟩).failures) :
    ∃ ds more, Written more ∧ InTurn Spells ds (tokensTo ts x.place ++ more) := by
  obtain ⟨list, mid, more, hmid, hmore, hlist⟩ := KeepsTo.fails keepsTo_definitions _ x hx
  obtain ⟨k, hk, rfl⟩ := hmid.eq_tokensTo (n := 0) rfl
  rw [Nat.zero_add] at hk
  have hplace : (⟨k, x.place.offset⟩ : Place) = x.place := by rw [← hk]
  rw [hplace] at hlist
  exact ⟨_, more, hmore, hlist.map⟩

end Grammar

end GraphHom
