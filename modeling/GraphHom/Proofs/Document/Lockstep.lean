import GraphHom.Proofs.Document.Attempts
import GraphHom.Proofs.Document.Places

/-!
# Characters and tokens in lockstep

An expression and a reader run in lockstep (`Peg.Traces`) if, from every place of a text, both go on to the
same place or both fail, and what the expression tries in vain on the way is what the reader leaves behind:
the same constructs in the same order, at the same places. This is kept by every way of composing. For a
rule in brackets it takes that nothing inside fails where the rule starts: an opening parenthesis has been
read by then (`Peg.Traces.bracketed`). So the grammar of characters runs in lockstep with the grammar of
tokens, part by part.
-/

namespace GraphHom

namespace Peg

open Reader

variable {α β : Type} {e f : Peg} {r s : Reader α} {k : α → Reader β} {text cs cs' : List Char}
  {V : Cursor → α → List Char → Prop} {W : Cursor → β → List Char → Prop} {c c' : Cursor}
  {construct : Construct}

/-! ## The relation between two runs -/

/-- The reader stands at `c` where `cs` is left of the text. -/
structure Here (text : List Char) (c : Cursor) (cs : List Char) : Prop where
  /-- The place is where `cs` begins. -/
  stands : Stands text c.place cs
  /-- The tokens that are left are those of `cs`. -/
  tokens_eq : tokens cs = c.rest

/-- A failure, with the number of characters before its place. -/
def noted (text : List Char) (f : Failure) : Nat × Construct := (offsetIn text f.place, f.construct)

/-- What the expression does from `cs` on is what the reader does from `c` on. After a match that leaves
`cs'` and gives `a`, `V c a cs'` holds. -/
structure Lockstep (text : List Char) (e : Peg) (r : Reader α) (V : Cursor → α → List Char → Prop)
    (c : Cursor) (cs : List Char) : Prop where
  /-- If the reader fails, the expression does not match. -/
  stops : (r c).outcome = none → run text.length skip e cs = none
  /-- If the reader goes on, the expression matches up to the same place. -/
  goesOn : ∀ a c', (r c).outcome = some (a, c') → ∃ cs' ts,
    run text.length skip e cs = some (cs', ts) ∧ Here text c' (skip cs') ∧ V c a cs'
  /-- No failure lies before the start. -/
  places : ∀ x ∈ (r c).failures, ∃ ds, Stands text x.place ds ∧ ds.length ≤ cs.length
  /-- The failures are what is tried in vain. -/
  tried : ∀ a, tried text.length skip e cs a = ((r c).failures.map (noted text)).foldl Attempts.note a

/-- From every place of the text, the expression and the reader run in lockstep. -/
def Traces (text : List Char) (e : Peg) (r : Reader α) (V : Cursor → α → List Char → Prop) : Prop :=
  ∀ c cs, Here text c cs → Lockstep text e r V c cs

theorem Here.tokens_eq' (h : Here text c (skip cs)) : tokens cs = c.rest := by
  rw [← tokens_skip, h.tokens_eq]

theorem Here.past (h : Here text c cs) (hne : cs ≠ []) {rest : List Token}
    (hrest : tokens (pastToken cs) = rest) :
    Here text ⟨⟨c.place.token + 1, 0⟩, rest⟩ (skip (pastToken cs)) where
  stands := h.stands.past hne
  tokens_eq := by rw [tokens_skip, hrest]

theorem length_skip_le {ts : List Tree} (h : run text.length skip e cs = some (cs', ts)) :
    (skip cs').length ≤ cs.length :=
  (skip_suffix.trans (run_suffix (fun _ => skip_suffix) h)).length_le

theorem run_seq_of_some {ts : List Tree} (h : run text.length skip e cs = some (cs', ts)) :
    run text.length skip (seq e f) cs =
      (run text.length skip f (skip cs')).map fun x => (x.1, ts ++ x.2) := by
  rw [run, h]
  simp only [Option.bind_eq_bind, Option.bind_some]
  rcases run text.length skip f (skip cs') with _ | ⟨cs'', us⟩ <;> rfl

/-! ## Composing -/

theorem Traces.seq (he : Traces text e r V)
    (hf : ∀ c a cs', V c a cs' → Traces text f (k a) fun _ b cs'' => W c b cs'') :
    Traces text (seq e f) (r >>= k) W := by
  intro c cs hc
  have hr := he c cs hc
  match ho : (r c).outcome with
  | none =>
    have hx := hr.stops ho
    have hfailures : ((r >>= k) c).failures = (r c).failures := by
      rw [failures_bind, ho, Option.elim_none, List.append_nil]
    refine ⟨fun _ => by rw [run, hx]; rfl, fun b c' hb => ?_, ?_, fun a => ?_⟩
    · rw [outcome_bind, ho] at hb
      cases hb
    · rw [hfailures]
      exact hr.places
    · rw [Peg.tried, hx, hfailures]
      exact hr.tried a
  | some (a, c') =>
    obtain ⟨cs', ts, hx, hhere, hv⟩ := hr.goesOn a c' ho
    have hk := hf c a cs' hv c' (skip cs') hhere
    have hfailures : ((r >>= k) c).failures = (r c).failures ++ (k a c').failures := by
      rw [failures_bind, ho, Option.elim_some]
    have houtcome : ((r >>= k) c).outcome = (k a c').outcome := by
      rw [outcome_bind, ho, Option.bind_some]
    refine ⟨fun hb => ?_, fun b c'' hb => ?_, fun x hx' => ?_, fun a => ?_⟩
    · rw [houtcome] at hb
      rw [run_seq_of_some hx, hk.stops hb, Option.map_none]
    · rw [houtcome] at hb
      obtain ⟨cs'', us, hy, hhere', hw⟩ := hk.goesOn b c'' hb
      exact ⟨cs'', ts ++ us, by rw [run_seq_of_some hx, hy, Option.map_some], hhere', hw⟩
    · rw [hfailures, List.mem_append] at hx'
      rcases hx' with hx' | hx'
      · exact hr.places x hx'
      · obtain ⟨ds, hds, hlen⟩ := hk.places x hx'
        exact ⟨ds, hds, Nat.le_trans hlen (length_skip_le hx)⟩
    · rw [Peg.tried, hx, hfailures, List.map_append, List.foldl_append, ← hr.tried]
      exact hk.tried _

/-- The last part of a sequence, after which a value is put together. -/
theorem Traces.last {g : α → β} (he : Traces text e r V) (h : ∀ c a cs', V c a cs' → W c (g a) cs') :
    Traces text e (r >>= fun a => pure (g a)) W := by
  intro c cs hc
  have hr := he c cs hc
  have hfailures : ((r >>= fun a => pure (g a)) c).failures = (r c).failures := by
    rw [failures_bind]
    rcases (r c).outcome with _ | ⟨a, c'⟩
    · rw [Option.elim_none, List.append_nil]
    · exact List.append_nil _
  refine ⟨fun hb => ?_, fun b c' hb => ?_, ?_, fun a => ?_⟩
  · rw [outcome_bind, Option.bind_eq_none_iff] at hb
    refine hr.stops (Option.eq_none_iff_forall_not_mem.mpr fun x hx => ?_)
    cases hb x hx
  · rw [outcome_bind, Option.bind_eq_some_iff] at hb
    obtain ⟨⟨a, c''⟩, ho, hb⟩ := hb
    cases hb
    obtain ⟨cs', ts, hx, hhere, hv⟩ := hr.goesOn a c'' ho
    exact ⟨cs', ts, hx, hhere, h c a cs' hv⟩
  · rw [hfailures]
    exact hr.places
  · rw [hfailures]
    exact hr.tried a

/-- If all failures lie beyond the start, attempts are left as they are or go beyond it. -/
theorem Lockstep.tried_beyond (h : Lockstep text e r V c cs) (hle : cs.length ≤ text.length)
    (hbeyond : ∀ x ∈ (r c).failures, ∃ ds, Stands text x.place ds ∧ ds.length < cs.length)
    (a : Attempts) : Peg.tried text.length skip e cs a = a ∨
      text.length - cs.length < (Peg.tried text.length skip e cs a).offset := by
  rw [h.tried]
  rcases hfs : (r c).failures with _ | ⟨x, fs⟩
  · exact .inl rfl
  · obtain ⟨ds, hds, hlen⟩ := hbeyond x (hfs ▸ List.mem_cons_self)
    have hkept := (Attempts.le_offset_foldl_note (a := a)).2 (noted text x)
      (List.mem_map_of_mem (l := x :: fs) List.mem_cons_self)
    have hoffset := hds.offsetIn_eq
    simp only [noted] at hkept
    exact .inr (by omega)

/-- A rule inside which nothing fails where the rule starts. -/
theorem Traces.rule (h : Traces text e r V)
    (hlater : ∀ c cs, Here text c cs → ∀ x ∈ (r c).failures, ∃ ds,
      Stands text x.place ds ∧ ds.length < cs.length) :
    Traces text (rule construct e) (tracked construct r) V := by
  intro c cs hc
  have hr := h c cs hc
  match ho : (r c).outcome with
  | some (a, c') =>
    obtain ⟨cs', ts, hx, hhere, hv⟩ := hr.goesOn a c' ho
    have hfailures : (tracked construct r c).failures = (r c).failures := by
      rw [failures_tracked, ho, Option.elim_some, List.append_nil]
    refine ⟨fun hb => ?_, fun b c'' hb => ?_, ?_, fun a => ?_⟩
    · rw [outcome_tracked, ho] at hb
      cases hb
    · rw [outcome_tracked, ho] at hb
      cases hb
      exact ⟨cs', _, by rw [run, hx, Option.map_some], hhere, hv⟩
    · rw [hfailures]
      exact hr.places
    · rw [Peg.tried, hx, hfailures]
      exact hr.tried a
  | none =>
    have hx := hr.stops ho
    have hfailures : (tracked construct r c).failures = (r c).failures ++ [⟨c.place, construct⟩] := by
      rw [failures_tracked, ho, Option.elim_none]
    refine ⟨fun _ => by rw [run, hx, Option.map_none], fun b c' hb => ?_, fun x hx' => ?_, fun a => ?_⟩
    · rw [outcome_tracked, ho] at hb
      cases hb
    · rw [hfailures, List.mem_append, List.mem_singleton] at hx'
      rcases hx' with hx' | rfl
      · exact hr.places x hx'
      · exact ⟨cs, hc.stands, Nat.le_refl _⟩
    · rw [Peg.tried, hx, hfailures, List.map_append, List.foldl_append, ← hr.tried, List.map_singleton,
        List.foldl_cons, List.foldl_nil]
      simp only
      rw [Attempts.track_eq_note (hr.tried_beyond hc.stands.suffix.length_le (hlater c cs hc) a), noted,
        hc.stands.offsetIn_eq]

theorem Traces.choice (he : Traces text e r V) (hf : Traces text f s V) :
    Traces text (choice e f) (either r s) V := by
  intro c cs hc
  have hr := he c cs hc
  have hs := hf c cs hc
  match ho : (r c).outcome with
  | some (a, c') =>
    obtain ⟨cs', ts, hx, hhere, hv⟩ := hr.goesOn a c' ho
    have hfailures : (either r s c).failures = (r c).failures := by
      rw [failures_either, ho, Option.elim_some, List.append_nil]
    have houtcome : (either r s c).outcome = some (a, c') := by
      rw [outcome_either, ho, Option.some_or]
    refine ⟨fun hb => ?_, fun b c'' hb => ?_, ?_, fun a => ?_⟩
    · rw [houtcome] at hb
      cases hb
    · rw [houtcome] at hb
      cases hb
      exact ⟨cs', ts, by rw [run, hx, Option.some_or], hhere, hv⟩
    · rw [hfailures]
      exact hr.places
    · rw [Peg.tried, hx, hfailures]
      exact hr.tried a
  | none =>
    have hx := hr.stops ho
    have hfailures : (either r s c).failures = (r c).failures ++ (s c).failures := by
      rw [failures_either, ho, Option.elim_none]
    have houtcome : (either r s c).outcome = (s c).outcome := by
      rw [outcome_either, ho, Option.none_or]
    have hrun : run text.length skip (Peg.choice e f) cs = run text.length skip f cs := by
      rw [run, hx, Option.none_or]
    refine ⟨fun hb => ?_, fun b c'' hb => ?_, fun x hx' => ?_, fun a => ?_⟩
    · rw [houtcome] at hb
      rw [hrun, hs.stops hb]
    · rw [houtcome] at hb
      rw [hrun]
      exact hs.goesOn b c'' hb
    · rw [hfailures, List.mem_append] at hx'
      exact hx'.elim (hr.places x) (hs.places x)
    · rw [Peg.tried, hx, hfailures, List.map_append, List.foldl_append, ← hr.tried]
      exact hs.tried _

theorem Traces.optional (h : Traces text e r V) :
    Traces text (optional e) (Reader.optional r) fun _ _ _ => True := by
  intro c cs hc
  have hr := h c cs hc
  refine ⟨fun hb => ?_, fun o c' hb => ?_, ?_, fun a => ?_⟩
  · rw [outcome_optional] at hb
    cases hb
  · rw [outcome_optional, Option.some.injEq] at hb
    match ho : (r c).outcome with
    | none =>
      rw [ho] at hb
      cases hb
      refine ⟨cs, [], by rw [run, hr.stops ho, Option.getD_none], ?_, trivial⟩
      rw [skip_of_tight hc.stands.tight]
      exact hc
    | some (a, c'') =>
      rw [ho] at hb
      cases hb
      obtain ⟨cs', ts, hx, hhere, -⟩ := hr.goesOn a c'' ho
      exact ⟨cs', ts, by rw [run, hx, Option.getD_some], hhere, trivial⟩
  · rw [failures_optional]
    exact hr.places
  · rw [Peg.tried, failures_optional]
    exact hr.tried a

/-! ## Repeating -/

/-- From any place on, with skipping before each match. -/
theorem Traces.repeated (h : Traces text e r V) (hr : Shrinks r) (hc : Here text c (skip cs)) :
    (∀ as c', (Reader.many r c).outcome = some (as, c') → Here text c'
      (skip (Peg.repeated (fun ds => run text.length skip e (skip ds)) cs).1)) ∧
    (∀ x ∈ (Reader.many r c).failures, ∃ ds, Stands text x.place ds ∧ ds.length ≤ (skip cs).length) ∧
    ∀ a, triedAgain (fun ds => run text.length skip e (skip ds))
      (fun ds => Peg.tried text.length skip e (skip ds)) cs a =
        ((Reader.many r c).failures.map (noted text)).foldl Attempts.note a := by
  induction hn : cs.length using Nat.strongRecOn generalizing cs c with
  | _ n ih =>
    have hstep := h c (skip cs) hc
    match ho : (r c).outcome with
    | none =>
      have hx := hstep.stops ho
      have hfailures : (Reader.many r c).failures = (r c).failures := by
        rw [failures_many, ho, Option.elim_none, List.append_nil]
      refine ⟨fun as c' has => ?_, ?_, fun a => ?_⟩
      · rw [outcome_many, ho] at has
        cases has
        rw [Peg.repeated, hx]
        exact hc
      · rw [hfailures]
        exact hstep.places
      · rw [triedAgain, hx, hfailures]
        exact hstep.tried a
    | some (b, c₁) =>
      obtain ⟨cs₁, ts, hx, hhere, -⟩ := hstep.goesOn b c₁ ho
      have hshort : c₁.rest.length < c.rest.length := hr c b c₁ ho
      have hlen : cs₁.length < cs.length := by
        refine length_lt_of_match hx ?_
        rwa [hhere.tokens_eq', hc.tokens_eq']
      have hfailures : (Reader.many r c).failures = (r c).failures ++ (Reader.many r c₁).failures := by
        rw [failures_many, ho, Option.elim_some, if_pos hshort]
      obtain ⟨hgoes, hplaces, htried⟩ := ih cs₁.length (hn ▸ hlen) hhere rfl
      refine ⟨fun as c' has => ?_, fun x hx' => ?_, fun a => ?_⟩
      · rw [outcome_many, ho, Option.elim_some, if_pos hshort, Option.map_eq_some_iff] at has
        obtain ⟨⟨as', c''⟩, has', heq⟩ := has
        cases heq
        rw [Peg.repeated, hx]
        simp only [if_pos hlen]
        exact hgoes as' c'' has'
      · rw [hfailures, List.mem_append] at hx'
        rcases hx' with hx' | hx'
        · exact hstep.places x hx'
        · obtain ⟨ds, hds, hle⟩ := hplaces x hx'
          exact ⟨ds, hds, Nat.le_trans hle (length_skip_le hx)⟩
      · rw [triedAgain, hx, hfailures, List.map_append, List.foldl_append, ← hstep.tried]
        simp only [if_pos hlen]
        exact htried _

theorem Traces.many (h : Traces text e r V) (hr : Shrinks r) :
    Traces text (Peg.many e) (Reader.many r) fun _ _ _ => True := by
  intro c cs hc
  have htight := skip_of_tight hc.stands.tight
  have htried : ∀ a, Peg.tried text.length skip (Peg.many e) cs a =
      triedAgain (fun ds => run text.length skip e (skip ds))
        (fun ds => Peg.tried text.length skip e (skip ds)) cs a := by
    intro a
    rw [Peg.tried, triedAgain, htight]
  obtain ⟨hgoes, hplaces, hnotes⟩ := h.repeated hr (htight.symm ▸ hc)
  refine ⟨fun hb => ?_, fun as c' has => ?_, ?_, fun a => (htried a).trans (hnotes a)⟩
  · obtain ⟨as, c', has⟩ := exists_outcome_many r c
    rw [has] at hb
    cases hb
  · exact ⟨_, _, run_many_of_tight hc.stands.tight, hgoes as c' has, trivial⟩
  · rw [htight] at hplaces
    exact hplaces

/-! ## Single tokens -/

theorem eq_cons_of_run_char {d : Char} {ts : List Tree}
    (h : run text.length skip (char d) cs = some (cs', ts)) : cs = d :: cs' := by
  rw [run_char] at h
  cases cs with
  | nil => cases h
  | cons c cs =>
    simp only [taking, Option.ite_none_right_eq_some, decide_eq_true_eq, Option.some.injEq,
      Prod.mk.injEq] at h
    rw [h.1, h.2.1]

/-- A parenthesis, with the place where it stands. -/
theorem traces_paren {d : Char} {t : Token}
    (hd : (d = '(' ∧ t = .opening) ∨ (d = ')' ∧ t = .closing)) :
    Traces text (char d) (token t) fun c n cs' =>
      c.place = ⟨n, 0⟩ ∧ Stands text ⟨n, 0⟩ (d :: cs') := by
  rintro ⟨p, rest⟩ cs hc
  have hsame := agrees_paren hd text.length cs p hc.stands.tight
  rw [hc.tokens_eq] at hsame
  refine ⟨fun hb => ?_, fun n c' hb => ?_, fun x hx => ?_, fun a => ?_⟩
  · rcases hsame with ⟨hx, -⟩ | ⟨_, _, _, _, -, hy, -⟩
    · exact hx
    · rw [hb] at hy
      cases hy
  · rcases hsame with ⟨-, hy⟩ | ⟨cs', ts, n', c'', hx, hy, htokens, -⟩
    · rw [hb] at hy
      cases hy
    · rw [hb, Option.some.injEq, Prod.mk.injEq] at hy
      obtain ⟨rfl, rfl⟩ := hy
      have hd' : ¬isWordChar d := by
        rcases hd with ⟨rfl, -⟩ | ⟨rfl, -⟩ <;> decide
      obtain rfl : cs = d :: cs' := eq_cons_of_run_char hx
      have hzero := hc.stands.offset_eq_zero fun hstart => hd' (startsWord_cons.mp hstart)
      have hcursor : n = p.token ∧ c' = ⟨⟨p.token + 1, 0⟩, tokens cs'⟩ := by
        rw [token] at hb
        split at hb
        · cases hb
        · split at hb
          · cases hb
            exact ⟨rfl, by rw [htokens]⟩
          · cases hb
      obtain ⟨rfl, rfl⟩ := hcursor
      have hplace : p = ⟨p.token, 0⟩ := by rw [← hzero]
      have hpast := hc.past (List.cons_ne_nil d cs') rfl
      rw [pastToken_of_not_isWordChar hd'] at hpast
      exact ⟨cs', ts, hx, hpast, hplace, hplace ▸ hc.stands⟩
  · rw [failures_token] at hx
    cases hx
  · rw [failures_token]
    rfl

theorem traces_keyword (kw : String) (hne : kw.toList ≠ []) (hkw : kw.toList.all isWordChar) :
    Traces text (Peg.text kw) (keyword kw.toList) fun _ _ _ => True := by
  rintro ⟨p, rest⟩ cs hc
  have hword := List.all_eq_true.mp hkw
  have hsame := agrees_keyword kw hne hkw text.length cs p hc.stands.tight
  rw [hc.tokens_eq] at hsame
  refine ⟨fun hb => ?_, fun u c' hb => ?_, fun x hx => ?_, fun a => ?_⟩
  · rcases hsame with ⟨hx, -⟩ | ⟨_, _, _, _, -, hy, -⟩
    · exact hx
    · rw [hb] at hy
      cases hy
  · rcases hsame with ⟨-, hy⟩ | ⟨cs', ts, u', c'', hx, hy, -, -⟩
    · rw [hb] at hy
      cases hy
    · refine ⟨cs', ts, hx, ?_, trivial⟩
      simp only [Peg.text, run, Option.map_eq_some_iff, List.isPrefixOf?_eq_some_iff_append_eq,
        Prod.mk.injEq] at hx
      obtain ⟨cs', rfl, rfl, -⟩ := hx
      have hprefix : kw.toList.isPrefixOf? (kw.toList ++ cs'.takeWhile isWordChar) =
          some (cs'.takeWhile isWordChar) := List.isPrefixOf?_eq_some_iff_append_eq.mpr rfl
      have hrest : rest = .word (kw.toList ++ cs'.takeWhile isWordChar) ::
          tokens (cs'.dropWhile isWordChar) := by
        rw [← tokens_append hne hword, hc.tokens_eq]
      subst hrest
      simp only [keyword, hprefix] at hb
      by_cases hstart : StartsWord cs'
      · obtain ⟨d, ds, rfl, hword'⟩ := hstart
        rw [List.takeWhile_cons_of_pos hword', List.dropWhile_cons_of_pos hword'] at hb
        cases hb
        have htight : skip (d :: ds) = d :: ds := skip_of_tight (tight_word hword')
        rw [htight]
        exact ⟨hc.stands.inside hne hword ⟨d, ds, rfl, hword'⟩, tokens_word hword'⟩
      · rw [takeWhile_of_not_startsWord hstart, dropWhile_of_not_startsWord hstart] at hb
        cases hb
        have hpast := hc.past (fun h => hne (List.append_eq_nil_iff.mp h).1) rfl
        rw [pastToken_word hword hne, dropWhile_of_not_startsWord hstart] at hpast
        exact hpast
  · rw [failures_keyword] at hx
    cases hx
  · rw [failures_keyword]
    rfl

theorem traces_opening : Traces text (char '(') (token .opening) fun c n cs' =>
    c.place = ⟨n, 0⟩ ∧ Stands text ⟨n, 0⟩ ('(' :: cs') := traces_paren (.inl ⟨rfl, rfl⟩)

theorem traces_closing : Traces text (char ')') (token .closing) fun c n cs' =>
    c.place = ⟨n, 0⟩ ∧ Stands text ⟨n, 0⟩ (')' :: cs') := traces_paren (.inr ⟨rfl, rfl⟩)

theorem traces_name : Traces text name Grammar.name fun _ _ _ => True := by
  have hword : Traces text (atomic (Peg.seq nameChar (Peg.many nameChar))) word fun _ _ _ => True := by
    rintro ⟨p, rest⟩ cs hc
    have hrest : tokens cs = rest := hc.tokens_eq
    subst hrest
    refine ⟨fun hb => ?_, fun n c' hb => ?_, fun x hx => ?_, fun a => ?_⟩
    · rw [run, run, takes_nameChar]
      rcases hc.stands.tight.cases with rfl | ⟨cs', rfl⟩ | ⟨cs', rfl⟩ | ⟨c, cs', rfl, hword⟩
      · rfl
      · rfl
      · rfl
      · rw [tokens_word hword] at hb
        cases hb
    · rcases hc.stands.tight.cases with rfl | ⟨cs', rfl⟩ | ⟨cs', rfl⟩ | ⟨c, cs', rfl, hword⟩
      · rw [tokens_nil] at hb
        cases hb
      · rw [tokens_opening] at hb
        cases hb
      · rw [tokens_closing] at hb
        cases hb
      · have hpast := hc.past (List.cons_ne_nil c cs') rfl
        rw [pastToken, if_pos hword] at hpast
        rw [tokens_word hword] at hb
        cases hb
        refine ⟨cs'.dropWhile isWordChar, [], ?_, hpast, trivial⟩
        rw [run, run, takes_nameChar, taking, if_pos hword]
        simp only [Option.bind_eq_bind, Option.bind_some, id_eq, takes_nameChar.many]
        rfl
    · rw [failures_word] at hx
      cases hx
    · rw [failures_word]
      rfl
  refine hword.rule fun c cs _ x hx => ?_
  rw [failures_word] at hx
  cases hx

theorem traces_endOfInput :
    Traces text endOfInput (tracked .endOfInput noToken) fun _ _ _ => True := by
  rintro ⟨p, rest⟩ cs hc
  have hrest : tokens cs = rest := hc.tokens_eq
  subst hrest
  by_cases hnil : cs = []
  · subst hnil
    have hend : tracked .endOfInput noToken ⟨p, tokens []⟩ = ⟨[], some ((), ⟨p, tokens []⟩)⟩ := by
      rw [tokens_nil]
      rfl
    refine ⟨fun hb => ?_, fun u c' hb => ?_, fun x hx => ?_, fun a => ?_⟩
    · rw [hend] at hb
      cases hb
    · rw [hend] at hb
      cases hb
      refine ⟨[], _, rfl, ?_, trivial⟩
      rw [skip_of_tight tight_nil]
      exact hc
    · rw [hend] at hx
      cases hx
    · rw [hend]
      rfl
  · obtain ⟨t, -, -, htokens, -⟩ := exists_token hc.stands.tight hnil
    have hfail : tracked .endOfInput noToken ⟨p, tokens cs⟩ = ⟨[⟨p, .endOfInput⟩], none⟩ := by
      rw [htokens]
      rfl
    have hempty : ¬cs.isEmpty = true := by rwa [List.isEmpty_iff]
    refine ⟨fun hb => by rw [run, if_neg hempty], fun u c' hb => ?_, fun x hx => ?_, fun a => ?_⟩
    · rw [hfail] at hb
      cases hb
    · rw [hfail, List.mem_singleton] at hx
      rw [hx]
      exact ⟨cs, hc.stands, Nat.le_refl _⟩
    · rw [hfail, Peg.tried, if_neg hempty, Attempts.track_eq_note (.inl rfl), List.map_singleton,
        List.foldl_cons, List.foldl_nil, noted, hc.stands.offsetIn_eq]

/-! ## The grammar -/

/-- A rule in brackets: when anything inside it fails, an opening parenthesis has been read. -/
theorem Traces.bracketed {k : Nat → Reader α}
    (hf : ∀ c n, c.place = ⟨n, 0⟩ → Traces text f (k n) fun _ a cs' => V c a cs') :
    Traces text (Peg.rule construct (Peg.seq (char '(') f))
      (tracked construct (token .opening >>= k)) V := by
  refine (Traces.seq traces_opening fun c n _ h => hf c n h.1).rule fun c cs hc x hx => ?_
  rw [failures_bind, failures_token, List.nil_append] at hx
  match ho : (token .opening c).outcome with
  | none =>
    rw [ho] at hx
    cases hx
  | some (n, c') =>
    rw [ho, Option.elim_some] at hx
    obtain ⟨cs', ts, hrun, hhere, hplace, -⟩ := (traces_opening c cs hc).goesOn n c' ho
    obtain ⟨ds, hds, hlen⟩ := (hf c n hplace c' (skip cs') hhere).places x hx
    have hskip : (skip cs').length ≤ cs'.length := skip_suffix.length_le
    rw [eq_cons_of_run_char hrun, List.length_cons]
    exact ⟨ds, hds, by omega⟩

/-- One part after another, whatever they leave. -/
theorem Traces.andThen (he : Traces text e r V) (hf : ∀ a, Traces text f (k a) fun _ _ _ => True) :
    Traces text (Peg.seq e f) (r >>= k) fun _ _ _ => True :=
  he.seq fun _ a _ _ => hf a

/-- The closing parenthesis at the end of a part. -/
theorem traces_end {g : Nat → β} :
    Traces text (char ')') (token .closing >>= fun n => pure (g n)) fun _ _ _ => True :=
  Traces.last traces_closing fun _ _ _ _ => trivial

/-- `( KEYWORD X* )` -/
theorem Traces.listing (h : Traces text e r V) (hr : Shrinks r) (kw : String) (hne : kw.toList ≠ [])
    (hkw : kw.toList.all isWordChar) :
    Traces text
      (Peg.rule construct
        (Peg.seq (char '(') (Peg.seq (Peg.text kw) (Peg.seq (Peg.many e) (char ')')))))
      (tracked construct (token .opening >>= fun _ => keyword kw.toList >>= fun _ =>
        Reader.many r >>= fun as => token .closing >>= fun _ => pure as)) fun _ _ _ => True :=
  Traces.bracketed fun _ _ _ => (traces_keyword kw hne hkw).andThen fun _ =>
    (h.many hr).andThen fun _ => traces_end

/-- `( KEYWORD NAME )` -/
theorem traces_naming (kw : String) (hne : kw.toList ≠ []) (hkw : kw.toList.all isWordChar) :
    Traces text
      (Peg.rule construct (Peg.seq (char '(') (Peg.seq (Peg.text kw) (Peg.seq name (char ')')))))
      (tracked construct (token .opening >>= fun _ => keyword kw.toList >>= fun _ =>
        Grammar.name >>= fun n => token .closing >>= fun _ => pure n)) fun _ _ _ => True :=
  Traces.bracketed fun _ _ _ => (traces_keyword kw hne hkw).andThen fun _ =>
    Traces.andThen traces_name fun _ => traces_end

theorem traces_nodes : Traces text nodes Grammar.nodes fun _ _ _ => True :=
  Traces.listing traces_name Grammar.shrinks_name "nodes" (by decide) (by decide)

theorem traces_edge : Traces text edge Grammar.edge fun _ _ _ => True :=
  Traces.bracketed fun _ _ _ => Traces.andThen traces_name fun _ =>
    Traces.andThen traces_name fun _ => Traces.andThen traces_name fun _ => traces_end

theorem traces_edges : Traces text edges Grammar.edges fun _ _ _ => True :=
  Traces.listing traces_edge Grammar.shrinks_edge "edges" (by decide) (by decide)

theorem traces_domain : Traces text domain Grammar.domain fun _ _ _ => True :=
  traces_naming "from" (by decide) (by decide)

theorem traces_codomain : Traces text codomain Grammar.codomain fun _ _ _ => True :=
  traces_naming "to" (by decide) (by decide)

theorem traces_pair : Traces text pair Grammar.pair fun _ _ _ => True :=
  Traces.bracketed fun _ _ _ => Traces.andThen traces_name fun _ =>
    Traces.andThen traces_name fun _ => traces_end

theorem traces_map : Traces text map Grammar.map fun _ _ _ => True :=
  Traces.listing traces_pair Grammar.shrinks_pair "map" (by decide) (by decide)

/-- The definition starts where the reader stood and ends just before what is left. -/
def Spanned (text : List Char) (c : Cursor) (d : PlacedDefinition) (cs' : List Char) : Prop :=
  c.place = ⟨d.opening, 0⟩ ∧ Stands text ⟨d.closing, 0⟩ (')' :: cs')

theorem traces_graph : Traces text graph Grammar.graph (Spanned text) :=
  Traces.bracketed fun c n hn => (traces_keyword "graph" (by decide) (by decide)).seq fun _ _ _ _ =>
    Traces.seq traces_name fun _ _ _ _ => (Traces.optional traces_nodes).seq fun _ _ _ _ =>
    (Traces.optional traces_edges).seq fun _ _ _ _ =>
    Traces.last traces_closing fun _ _ _ h => ⟨hn, h.2⟩

theorem traces_morphism : Traces text morphism Grammar.morphism (Spanned text) :=
  Traces.bracketed fun c n hn => (traces_keyword "morphism" (by decide) (by decide)).seq fun _ _ _ _ =>
    Traces.seq traces_name fun _ _ _ _ => Traces.seq traces_domain fun _ _ _ _ =>
    Traces.seq traces_codomain fun _ _ _ _ => (Traces.optional traces_map).seq fun _ _ _ _ =>
    Traces.last traces_closing fun _ _ _ h => ⟨hn, h.2⟩

theorem traces_definition :
    Traces text (choice graph morphism) (either Grammar.graph Grammar.morphism) (Spanned text) :=
  Traces.choice traces_graph traces_morphism

theorem traces_definitions : Traces text (Peg.seq (Peg.many (choice graph morphism)) endOfInput)
    Grammar.definitions fun _ _ _ => True :=
  (Traces.many traces_definition Grammar.shrinks_definition).andThen fun _ =>
    Traces.last traces_endOfInput fun _ _ _ _ => trivial

end Peg

end GraphHom
