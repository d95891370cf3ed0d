import GraphHom.Proofs.Document.Reading
import GraphHom.Proofs.Document.Skipping

/-!
# Characters and tokens agree

An expression and a reader agree (`Peg.Agrees`) if, wherever a token starts, both go on or neither does,
what they leave of the text is the same, and the trees of the one show the value of the other. Agreement
is kept by every way of composing, so that the grammar of characters agrees with the grammar of tokens
part by part. The trees of a definition amount to that definition, and taking the definitions into a
document one by one ends in the document that has them all (`Peg.parse_eq_some_iff`).
-/

namespace GraphHom

namespace Peg

open Reader

variable {α β : Type} {e f : Peg} {r s : Reader α} {k : α → Reader β} {R R' : α → List Tree → Prop}
  {S : β → List Tree → Prop} {total : Nat} {c : Char} {cs cs' : List Char} {place : Place}
  {ts us trees : List Tree} {construct : Construct} {sk : List Char → List Char}

/-- Either nothing matches and nothing is read, or what is left of the text has the tokens that are left
and the trees show the value. -/
def Same (R : α → List Tree → Prop) (x : Option Match) (y : Option (α × Cursor)) : Prop :=
  (x = none ∧ y = none) ∨
    ∃ cs ts a c, x = some (cs, ts) ∧ y = some (a, c) ∧ tokens cs = c.rest ∧ R a ts

/-- From wherever a token starts, the expression and the reader do the same. -/
def Agrees (e : Peg) (r : Reader α) (R : α → List Tree → Prop) : Prop :=
  ∀ total cs place, Tight cs →
    Same R (run total skip e cs) (r ⟨place, tokens cs⟩).outcome

theorem same_none : Same R none none := .inl ⟨rfl, rfl⟩

theorem same_some {a : α} {c : Cursor} (h : tokens cs = c.rest) (hR : R a ts) :
    Same R (some (cs, ts)) (some (a, c)) :=
  .inr ⟨cs, ts, a, c, rfl, rfl, h, hR⟩

/-! ## Composing -/

/-- Agreement goes on after blanks and comments. -/
theorem Agrees.after_skip (h : Agrees e r R) {c : Cursor} (hc : tokens cs = c.rest) (total : Nat) :
    Same R (run total skip e (skip cs)) (r c).outcome := by
  have h' := h total (skip cs) c.place tight_skip
  rwa [tokens_skip, hc] at h'

theorem Agrees.mono (h : Agrees e r R) (hR : ∀ a ts, R a ts → R' a ts) : Agrees e r R' := by
  intro total cs place hcs
  rcases h total cs place hcs with ⟨hx, hy⟩ | ⟨cs', ts, a, c', hx, hy, htokens, hts⟩
  · rw [hx, hy]
    exact same_none
  · rw [hx, hy]
    exact same_some htokens (hR a ts hts)

theorem Agrees.seq (he : Agrees e r R)
    (hf : ∀ a ts, R a ts → Agrees f (k a) fun b us => S b (ts ++ us)) :
    Agrees (seq e f) (r >>= k) S := by
  intro total cs place hcs
  rw [run, outcome_bind]
  rcases he total cs place hcs with ⟨hx, hy⟩ | ⟨cs', ts, a, c', hx, hy, htokens, hR⟩
  · rw [hx, hy]
    exact same_none
  · rw [hx, hy]
    simp only [Option.bind_some, Option.bind_eq_bind]
    rcases (hf a ts hR).after_skip htokens total with
      ⟨hx', hy'⟩ | ⟨cs'', us, b, c'', hx', hy', htokens', hS⟩
    · rw [hx', hy']
      exact same_none
    · rw [hx', hy']
      exact same_some htokens' hS

/-- An expression that leaves no trees, before another. -/
theorem Agrees.skip (he : Agrees e r fun _ ts => ts = []) (hf : ∀ a, Agrees f (k a) S) :
    Agrees (Peg.seq e f) (r >>= k) S := by
  refine he.seq fun a ts hts => ?_
  subst hts
  exact hf a

/-- The last part of a sequence, after which a value is put together. -/
theorem Agrees.last {g : α → β} (he : Agrees e r R) (h : ∀ a ts, R a ts → S (g a) ts) :
    Agrees e (r >>= fun a => pure (g a)) S := by
  intro total cs place hcs
  rw [outcome_bind]
  rcases he total cs place hcs with ⟨hx, hy⟩ | ⟨cs', ts, a, c', hx, hy, htokens, hR⟩
  · rw [hx, hy]
    exact same_none
  · rw [hx, hy]
    exact same_some htokens (h a ts hR)

theorem Agrees.rule (h : Agrees e r R) : Agrees (rule construct e) (tracked construct r)
    fun a ts => ∃ chars inner, ts = [.node construct chars inner] ∧ R a inner := by
  intro total cs place hcs
  rw [run, outcome_tracked]
  rcases h total cs place hcs with ⟨hx, hy⟩ | ⟨cs', ts, a, c', hx, hy, htokens, hR⟩
  · rw [hx, hy]
    exact same_none
  · rw [hx, hy]
    exact same_some htokens ⟨_, _, rfl, hR⟩

theorem Agrees.choice (he : Agrees e r R) (hf : Agrees f s R) :
    Agrees (choice e f) (either r s) R := by
  intro total cs place hcs
  rw [run, outcome_either]
  rcases he total cs place hcs with ⟨hx, hy⟩ | ⟨cs', ts, a, c', hx, hy, htokens, hR⟩
  · rw [hx, hy]
    exact hf total cs place hcs
  · rw [hx, hy]
    exact same_some htokens hR

theorem Agrees.optional {R' : Option α → List Tree → Prop} (h : Agrees e r R)
    (hsome : ∀ a ts, R a ts → R' (some a) ts) (hnone : R' none []) :
    Agrees (optional e) (Reader.optional r) R' := by
  intro total cs place hcs
  rw [run, outcome_optional]
  rcases h total cs place hcs with ⟨hx, hy⟩ | ⟨cs', ts, a, c', hx, hy, htokens, hR⟩
  · rw [hx, hy]
    exact same_some rfl hnone
  · rw [hx, hy]
    exact same_some htokens (hsome a ts hR)

/-! ## Repeating -/

/-- If a match leaves fewer tokens, it leaves fewer characters. -/
theorem length_lt_of_match (h : run total Peg.skip e (Peg.skip cs) = some (cs', ts))
    (hlt : (tokens cs').length < (tokens cs).length) : cs'.length < cs.length := by
  have hsuffix : cs' <:+ cs := (run_suffix (fun _ => skip_suffix) h).trans skip_suffix
  refine Nat.lt_of_le_of_ne hsuffix.length_le fun heq => ?_
  rw [hsuffix.eq_of_length heq] at hlt
  exact Nat.lt_irrefl _ hlt

/-- From any place on, with skipping before each match. -/
theorem Agrees.repeated (h : Agrees e r R) (hr : Shrinks r) {c : Cursor} (hc : tokens cs = c.rest) :
    Same (InTurn R) (some (Peg.repeated (fun ds => run total Peg.skip e (Peg.skip ds)) cs))
      (Reader.many r c).outcome := by
  induction hn : cs.length using Nat.strongRecOn generalizing cs c with
  | _ n ih =>
    rw [Peg.repeated, outcome_many]
    rcases h.after_skip hc total with ⟨hx, hy⟩ | ⟨cs', ts, a, c', hx, hy, htokens, hR⟩
    · rw [hx, hy]
      exact same_some hc .nil
    · have hshort : c'.rest.length < c.rest.length := hr c a c' hy
      have hlen : cs'.length < cs.length :=
        length_lt_of_match hx (by rwa [htokens, hc])
      rw [hx, hy]
      simp only [if_pos hlen, Option.elim_some, if_pos hshort]
      rcases ih cs'.length (hn ▸ hlen) htokens rfl with
        ⟨hx', -⟩ | ⟨cs'', us, as, c'', hx', hy', htokens', hus⟩
      · exact absurd hx' (by simp)
      · rw [Option.some.injEq] at hx'
        rw [hx', hy', Option.map_some]
        exact same_some htokens' (.cons hR hus)

/-- Where a token starts, a repetition may as well skip before its first match. -/
theorem run_many_of_tight (h : Tight cs) : run total Peg.skip (Peg.many e) cs =
    some (Peg.repeated (fun ds => run total Peg.skip e (Peg.skip ds)) cs) := by
  rw [run, Peg.repeated, skip_of_tight h]
  rcases run total Peg.skip e cs with _ | ⟨cs', ts⟩
  · rfl
  · simp only
    split <;> rfl

theorem Agrees.many (h : Agrees e r R) (hr : Shrinks r) :
    Agrees (Peg.many e) (Reader.many r) (InTurn R) := by
  intro total cs place hcs
  rw [run_many_of_tight hcs]
  exact h.repeated hr rfl

/-! ## Single tokens -/

/-- A text at which a token starts is empty, or starts with a parenthesis or a character of a word. -/
theorem Tight.cases (h : Tight cs) : cs = [] ∨ (∃ cs', cs = '(' :: cs') ∨ (∃ cs', cs = ')' :: cs') ∨
    ∃ c cs', cs = c :: cs' ∧ isWordChar c := by
  cases cs with
  | nil => exact .inl rfl
  | cons c cs =>
    obtain ⟨hblank, hcomment⟩ := h c rfl
    rcases char_cases c with hc | rfl | rfl | rfl | hc
    · rw [hblank] at hc
      cases hc
    · exact .inr (.inl ⟨cs, rfl⟩)
    · exact .inr (.inr (.inl ⟨cs, rfl⟩))
    · exact absurd rfl hcomment
    · exact .inr (.inr (.inr ⟨c, cs, rfl, hc⟩))

/-- A parenthesis is a token. -/
theorem agrees_paren {d : Char} {t : Token}
    (hd : (d = '(' ∧ t = .opening) ∨ (d = ')' ∧ t = .closing)) :
    Agrees (char d) (token t) fun _ ts => ts = [] := by
  intro total cs place hcs
  rw [run_char]
  have hword : ∀ c, isWordChar c → c ≠ d := by
    rintro c hc rfl
    obtain ⟨-, hopening, hclosing, -⟩ := isWordChar_iff.mp hc
    exact hd.elim (fun h => hopening h.1) fun h => hclosing h.1
  rcases hcs.cases with rfl | ⟨cs', rfl⟩ | ⟨cs', rfl⟩ | ⟨c, cs', rfl, hc⟩
  · rw [tokens_nil]
    exact same_none
  · rw [tokens_opening]
    rcases hd with ⟨rfl, rfl⟩ | ⟨rfl, rfl⟩
    · exact same_some rfl rfl
    · exact same_none
  · rw [tokens_closing]
    rcases hd with ⟨rfl, rfl⟩ | ⟨rfl, rfl⟩
    · exact same_none
    · exact same_some rfl rfl
  · rw [tokens_word hc, taking, if_neg (by simp [hword c hc])]
    rcases hd with ⟨rfl, rfl⟩ | ⟨rfl, rfl⟩
    · exact same_none
    · exact same_none

theorem agrees_opening : Agrees (char '(') (token .opening) fun _ ts => ts = [] :=
  agrees_paren (.inl ⟨rfl, rfl⟩)

theorem agrees_closing : Agrees (char ')') (token .closing) fun _ ts => ts = [] :=
  agrees_paren (.inr ⟨rfl, rfl⟩)

/-- Characters of a keyword in front of a text are a keyword in front of its tokens. -/
theorem keyworded_tokens {w : List Char} (hne : w ≠ []) (hw : ∀ c ∈ w, isWordChar c) :
    Keyworded w (tokens cs) (tokens (w ++ cs)) := by
  rw [tokens_append hne hw]
  cases cs with
  | nil =>
    rw [List.takeWhile_nil, List.dropWhile_nil, List.append_nil]
    exact .apart _
  | cons c cs =>
    by_cases hc : isWordChar c
    · rw [List.takeWhile_cons_of_pos hc, List.dropWhile_cons_of_pos hc, tokens_word hc]
      exact .glued _ (List.cons_ne_nil _ _)
    · rw [List.takeWhile_cons_of_neg hc, List.dropWhile_cons_of_neg hc, List.append_nil]
      exact .apart _

/-- If a word comes first, the text starts with its characters. -/
theorem Tight.word_prefix (h : Tight cs) {w : List Char} {us : List Token}
    (hw : tokens cs = .word w :: us) : w <+: cs := by
  rcases h.cases with rfl | ⟨cs', rfl⟩ | ⟨cs', rfl⟩ | ⟨c, cs', rfl, hc⟩
  · rw [tokens_nil] at hw
    cases hw
  · rw [tokens_opening] at hw
    cases hw
  · rw [tokens_closing] at hw
    cases hw
  · rw [tokens_word hc, List.cons.injEq, Token.word.injEq] at hw
    rw [← hw.1]
    exact List.cons_prefix_cons.mpr ⟨rfl, List.takeWhile_prefix _⟩

theorem agrees_keyword (kw : String) (hne : kw.toList ≠ []) (hkw : kw.toList.all isWordChar) :
    Agrees (text kw) (keyword kw.toList) fun _ ts => ts = [] := by
  intro total cs place hcs
  rw [text, run]
  cases hprefix : kw.toList.isPrefixOf? cs with
  | some rest =>
    have hcs' : kw.toList ++ rest = cs := List.isPrefixOf?_eq_some_iff_append_eq.mp hprefix
    obtain ⟨u, place', ho, -⟩ := (reads_keyword place (tokens cs) () (tokens rest)).mpr
      (hcs' ▸ keyworded_tokens hne (List.all_eq_true.mp hkw))
    rw [ho]
    exact same_some rfl rfl
  | none =>
    cases ho : (keyword kw.toList ⟨place, tokens cs⟩).outcome with
    | none => exact same_none
    | some read =>
      obtain ⟨w, us, hw, hle⟩ := (reads_keyword.of_outcome ho).exists_word
      obtain ⟨rest, hrest⟩ := hle.trans (hcs.word_prefix hw)
      rw [List.isPrefixOf?_eq_some_iff_append_eq.mpr hrest] at hprefix
      cases hprefix

/-- The tree of a name. -/
def nameTree (n : Name) : Tree := .node .name n.text.toList []

@[simp] theorem name_nameTree {n : Name} : (nameTree n).name = n := by
  rw [nameTree, Tree.name, String.ofList_toList]

theorem agrees_name : Agrees name Grammar.name fun n ts => ts = [nameTree n] := by
  intro total cs place hcs
  rw [name, run, run, run, takes_nameChar, Grammar.name, outcome_tracked]
  rcases hcs.cases with rfl | ⟨cs', rfl⟩ | ⟨cs', rfl⟩ | ⟨c, cs', rfl, hc⟩
  · rw [tokens_nil]
    exact same_none
  · rw [tokens_opening]
    exact same_none
  · rw [tokens_closing]
    exact same_none
  · have hmatched : (c :: cs').take ((c :: cs').length - (cs'.dropWhile isWordChar).length) =
        c :: cs'.takeWhile isWordChar := by
      have happend : c :: cs' = (c :: cs'.takeWhile isWordChar) ++ cs'.dropWhile isWordChar := by
        rw [List.cons_append, List.takeWhile_append_dropWhile]
      rw [happend, List.length_append, Nat.add_sub_cancel, List.take_left]
    rw [tokens_word hc, taking, if_pos hc]
    simp only [Option.bind_eq_bind, Option.bind_some, id_eq, takes_nameChar.many, Option.pure_def,
      Option.map_some, hmatched, Reader.word]
    exact same_some rfl (by rw [nameTree, String.toList_ofList]; rfl)

/-! ## The grammar -/

/-- `( KEYWORD X* )` -/
theorem Agrees.listing (he : Agrees e r R) (hr : Shrinks r) (kw : String) (hne : kw.toList ≠ [])
    (hkw : kw.toList.all isWordChar) :
    Agrees (Peg.seq (char '(') (Peg.seq (text kw) (Peg.seq (Peg.many e) (char ')'))))
      (token .opening >>= fun _ => keyword kw.toList >>= fun _ =>
        Reader.many r >>= fun as => token .closing >>= fun _ => pure as) (InTurn R) := by
  refine Agrees.skip agrees_opening fun _ => (agrees_keyword kw hne hkw).skip fun _ =>
    (he.many hr).seq fun as ts hts => Agrees.last agrees_closing fun _ us hus => ?_
  rw [hus, List.append_nil]
  exact hts

/-- `( KEYWORD NAME )` -/
theorem agrees_naming (kw : String) (hne : kw.toList ≠ []) (hkw : kw.toList.all isWordChar) :
    Agrees (seq (char '(') (seq (text kw) (seq name (char ')'))))
      (token .opening >>= fun _ => keyword kw.toList >>= fun _ =>
        Grammar.name >>= fun n => token .closing >>= fun _ => pure n)
      fun n ts => ts = [nameTree n] := by
  refine Agrees.skip agrees_opening fun _ => (agrees_keyword kw hne hkw).skip fun _ =>
    Agrees.seq agrees_name fun n ts hts => Agrees.last agrees_closing fun _ us hus => ?_
  rw [hus, List.append_nil]
  exact hts

theorem agrees_nodes : Agrees nodes Grammar.nodes fun ns ts =>
    ∃ chars inner, ts = [.node .nodes chars inner] ∧ inner.map Tree.name = ns := by
  have hlisting := Agrees.listing agrees_name Grammar.shrinks_name "nodes" (by decide) (by decide)
  refine Agrees.mono (Agrees.rule hlisting) ?_
  rintro ns _ ⟨chars, inner, rfl, hinner⟩
  refine ⟨chars, inner, rfl, ?_⟩
  rw [List.map_eq_flatMap]
  exact hinner.flatMap_eq fun n ts hts => by simp [hts]

theorem agrees_edge : Agrees edge Grammar.edge fun t ts =>
    ts.flatMap (fun t => Tree.byThrees t.childNames) = [t] := by
  refine Agrees.mono (Agrees.rule (R := fun t ts => ts =
    [nameTree t.source, nameTree t.label, nameTree t.target]) ?_) ?_
  · refine Agrees.skip agrees_opening fun _ => Agrees.seq agrees_name fun source _ hs =>
      Agrees.seq agrees_name fun label _ hl => Agrees.seq agrees_name fun target _ ht =>
      Agrees.last agrees_closing fun _ _ hus => ?_
    rw [hs, hl, ht, hus]
    rfl
  · rintro t _ ⟨chars, inner, rfl, rfl⟩
    simp [Tree.childNames, Tree.byThrees]

theorem agrees_edges : Agrees edges Grammar.edges fun es ts => ∃ chars inner,
    ts = [.node .edges chars inner] ∧ inner.flatMap (fun t => Tree.byThrees t.childNames) = es := by
  have hlisting := Agrees.listing agrees_edge Grammar.shrinks_edge "edges" (by decide) (by decide)
  refine Agrees.mono (Agrees.rule hlisting) ?_
  rintro es _ ⟨chars, inner, rfl, hinner⟩
  exact ⟨chars, inner, rfl, hinner.flatMap_eq fun _ _ hts => hts⟩

theorem agrees_pair : Agrees pair Grammar.pair fun p ts =>
    ts.flatMap (fun t => Tree.byTwos t.childNames) = [p] := by
  refine Agrees.mono (Agrees.rule (R := fun p ts => ts = [nameTree p.1, nameTree p.2]) ?_) ?_
  · refine Agrees.skip agrees_opening fun _ => Agrees.seq agrees_name fun label _ hl =>
      Agrees.seq agrees_name fun image _ hi => Agrees.last agrees_closing fun _ _ hus => ?_
    rw [hl, hi, hus]
    rfl
  · rintro p _ ⟨chars, inner, rfl, rfl⟩
    simp [Tree.childNames, Tree.byTwos]

theorem agrees_map : Agrees map Grammar.map fun ps ts => ∃ chars inner,
    ts = [.node .map chars inner] ∧ inner.flatMap (fun t => Tree.byTwos t.childNames) = ps := by
  have hlisting := Agrees.listing agrees_pair Grammar.shrinks_pair "map" (by decide) (by decide)
  refine Agrees.mono (Agrees.rule hlisting) ?_
  rintro ps _ ⟨chars, inner, rfl, hinner⟩
  exact ⟨chars, inner, rfl, hinner.flatMap_eq fun _ _ hts => hts⟩

theorem agrees_domain : Agrees domain Grammar.domain fun n ts =>
    ∃ chars, ts = [.node .domain chars [nameTree n]] := by
  refine Agrees.mono (Agrees.rule (agrees_naming "from" (by decide) (by decide))) ?_
  rintro n _ ⟨chars, _, rfl, rfl⟩
  exact ⟨chars, rfl⟩

theorem agrees_codomain : Agrees codomain Grammar.codomain fun n ts =>
    ∃ chars, ts = [.node .codomain chars [nameTree n]] := by
  refine Agrees.mono (Agrees.rule (agrees_naming "to" (by decide) (by decide))) ?_
  rintro n _ ⟨chars, _, rfl, rfl⟩
  exact ⟨chars, rfl⟩

/-- The tree of a definition amounts to that definition. -/
def Amounts (d : PlacedDefinition) (ts : List Tree) : Prop :=
  ∃ t, ts = [t] ∧ t.definition = some d.definition

theorem addToGraph_nameTree {n : Option Name} {ns : List Name} {es : List Triple} {called : Name} :
    Tree.addToGraph (n, ns, es) (nameTree called) = some (some called, ns, es) := by
  show some (some (nameTree called).name, ns, es) = _
  rw [name_nameTree]

theorem agrees_graph : Agrees graph Grammar.graph Amounts := by
  have hnodes : Agrees (optional nodes) (Reader.optional Grammar.nodes) fun o ts =>
      ∀ n ns es, ts.foldlM Tree.addToGraph (n, ns, es) = some (n, ns ++ o.getD [], es) := by
    refine Agrees.optional agrees_nodes ?_ ?_
    · rintro ns _ ⟨chars, inner, rfl, rfl⟩ n ns' es
      rfl
    · intro n ns es
      simp
  have hedges : Agrees (optional edges) (Reader.optional Grammar.edges) fun o ts =>
      ∀ n ns es, ts.foldlM Tree.addToGraph (n, ns, es) = some (n, ns, es ++ o.getD []) := by
    refine Agrees.optional agrees_edges ?_ ?_
    · rintro es _ ⟨chars, inner, rfl, rfl⟩ n ns es'
      rfl
    · intro n ns es
      simp
  refine Agrees.mono (Agrees.rule (R := fun d ts => ∃ g, d.definition = .graph g ∧
    Tree.graphDef ts = some g) ?_) ?_
  · refine Agrees.skip agrees_opening fun _ =>
      (agrees_keyword _ (by decide) (by decide)).skip fun _ =>
      Agrees.seq agrees_name fun called _ hcalled => hnodes.seq fun nodeList ns hns =>
      hedges.seq fun edgeList es hes => Agrees.last agrees_closing fun _ _ hus => ⟨_, rfl, ?_⟩
    have hfold : ([nameTree called] ++ (ns ++ es)).foldlM Tree.addToGraph (none, [], []) =
        some (some called, [] ++ nodeList.getD [], [] ++ edgeList.getD []) := by
      rw [List.cons_append, List.nil_append, List.foldlM_cons, addToGraph_nameTree,
        Option.bind_eq_bind, Option.bind_some, List.foldlM_append, hns, Option.bind_eq_bind,
        Option.bind_some, hes]
    rw [hcalled, hus, List.append_nil, Tree.graphDef, hfold]
    rfl
  · rintro d _ ⟨chars, inner, rfl, g, hd, hg⟩
    exact ⟨_, rfl, by rw [Tree.definition, hg, hd, Option.map_some]⟩

theorem agrees_morphism : Agrees morphism Grammar.morphism Amounts := by
  have hmap : Agrees (optional map) (Reader.optional Grammar.map) fun o ts =>
      ∀ names ps, ts.foldlM Tree.addToMorphism (names, ps) = some (names, ps ++ o.getD []) := by
    refine Agrees.optional agrees_map ?_ ?_
    · rintro ps _ ⟨chars, inner, rfl, rfl⟩ names ps'
      rfl
    · intro names ps
      simp
  refine Agrees.mono (Agrees.rule (R := fun d ts => ∃ m, d.definition = .morphism m ∧
    Tree.morphismDef ts = some m) ?_) ?_
  · refine Agrees.skip agrees_opening fun _ =>
      (agrees_keyword _ (by decide) (by decide)).skip fun _ =>
      Agrees.seq agrees_name fun called _ hcalled => Agrees.seq agrees_domain fun source ds hds =>
      Agrees.seq agrees_codomain fun target cs hcs => hmap.seq fun pairs ps hps =>
      Agrees.last agrees_closing fun _ _ hus => ⟨_, rfl, ?_⟩
    obtain ⟨chars, rfl⟩ := hds
    obtain ⟨chars', rfl⟩ := hcs
    have hfold : ([nameTree called] ++ ([Tree.node .domain chars [nameTree source]] ++
          ([Tree.node .codomain chars' [nameTree target]] ++ ps))).foldlM Tree.addToMorphism ([], []) =
        some ([called, source, target], [] ++ pairs.getD []) := by
      show ps.foldlM Tree.addToMorphism
        ([(nameTree called).name, (nameTree source).name, (nameTree target).name], []) = _
      rw [hps]
      simp only [name_nameTree]
    rw [hcalled, hus, List.append_nil, Tree.morphismDef, hfold]
    rfl
  · rintro d _ ⟨chars, inner, rfl, m, hd, hm⟩
    exact ⟨_, rfl, by rw [Tree.definition, hm, hd, Option.map_some]⟩

/-! ## Documents -/

theorem agrees_endOfInput : Agrees endOfInput (tracked .endOfInput noToken)
    fun _ ts => ts = [.node .endOfInput [] []] := by
  intro total cs place hcs
  rw [run, outcome_tracked]
  rcases hcs.cases with rfl | ⟨cs', rfl⟩ | ⟨cs', rfl⟩ | ⟨c, cs', rfl, hc⟩
  · rw [tokens_nil]
    exact same_some tokens_nil rfl
  · rw [tokens_opening]
    exact same_none
  · rw [tokens_closing]
    exact same_none
  · rw [tokens_word hc]
    exact same_none

theorem agrees_definitions :
    Agrees (seq (many (choice graph morphism)) endOfInput) Grammar.definitions fun list ts =>
      ∃ us, ts = us ++ [.node .endOfInput [] []] ∧ InTurn Amounts list us := by
  refine ((Agrees.choice agrees_graph agrees_morphism).many Grammar.shrinks_definition).seq
    fun list us hus => Agrees.last agrees_endOfInput fun _ ts hts => ?_
  exact ⟨us, by rw [hts], hus⟩

/-- The grammar of characters agrees with the grammar of tokens on every text. -/
theorem same_document (cs : List Char) :
    Same (fun list ts => ∃ us, ts = us ++ [.node .endOfInput [] []] ∧ InTurn Amounts list us)
      (run cs.length skip document cs) (Grammar.definitions ⟨Place.first, tokens cs⟩).outcome := by
  have h := Agrees.after_skip agrees_definitions (c := ⟨Place.first, tokens cs⟩) rfl cs.length
  rw [document, run, run, if_pos rfl]
  rcases h with ⟨hx, hy⟩ | ⟨cs', ts, list, c, hx, hy, htokens, hts⟩
  · rw [hy]
    simp only [Option.bind_eq_bind, Option.bind_some, hx]
    exact same_none
  · rw [hy]
    simp only [Option.bind_eq_bind, Option.bind_some, hx]
    exact same_some htokens hts

end Peg

end GraphHom
