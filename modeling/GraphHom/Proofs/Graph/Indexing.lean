import GraphHom.Proofs.Graph.Validation

/-!
# Making a graph triple by triple

A graph is stored as a map from labels to elements, and it is made in two passes. The first takes the triples
in their order and enters each under its label, unless it is malformed or its label is taken by then. The
second takes the edges that are in the map, in the order of their labels, and looks their ends up. Either
stops at the first thing that is wrong. No triple is compared with the list as a whole: that a label is
repeated shows in the map as far as it has grown, and that an end is missing shows in the finished map.

* `ElementMap.Holds.enter`, `ElementMap.Holds.enter_eq_error_iff` — **the step** of the first pass: a triple
  that is let in is held from then on, and one that is not has a defect among all triples;
* `ElementMap.Holds.enterAll`, `ElementMap.Holds.enterAll_eq_error_iff` — **the run**: the pass leaves a map
  of all triples, or has stopped at the least that has a defect;
* `ElementMap.Holds.checkEnds_eq`, `ElementMap.Holds.checkEdges_eq` — a step and a run of the second pass;
* `IndexedGraph.build_eq_map_ofTriples` — both passes together and `Graph.ofTriples` have one answer; what is
  looked up in the map is what `Graph` shows (`IndexedGraph.get?_ofGraph`, `IndexedGraph.contains_ofGraph`);
* `IndexedGraph.build_answers` — what becomes of a list of triples.
-/

namespace GraphHom

/-- A check of the elements with property `p` stops at the first that has something wrong with it, if
nothing is wrong with the others. -/
theorem forM_filter_eq_elim_findSome? {α ε : Type} {p : α → Prop} [DecidablePred p]
    {check : α → Except ε Unit} {f : α → Option ε} {l : List α}
    (hcheck : ∀ a, check a = (f a).elim (.ok ()) .error) (hskip : ∀ a ∈ l, ¬p a → f a = none) :
    (l.filter p).forM check = (l.findSome? f).elim (.ok ()) .error := by
  induction l with
  | nil => rfl
  | cons a l ih =>
    have hrest := ih fun b hb => hskip b (List.mem_cons_of_mem a hb)
    rw [List.findSome?_cons]
    by_cases hp : p a
    · rw [List.filter_cons, if_pos (decide_eq_true hp)]
      show (check a >>= fun _ => (l.filter p).forM check) = _
      rw [hcheck a]
      cases f a with
      | none => exact hrest
      | some e => rfl
    · rw [List.filter_cons, if_neg (by simpa using hp), hskip a List.mem_cons_self hp]
      exact hrest

/-- Of the triples in an ascending list those that stand before one of them are less than it, and no others
are. -/
theorem exists_lt_iff_of_ascending {before after : List Triple} {t : Triple}
    (hasc : Ascending id (before ++ t :: after)) :
    (∃ u ∈ before ++ t :: after, u < t ∧ u.label = t.label) ↔ ∃ u ∈ before, u.label = t.label := by
  obtain ⟨-, htail, hbefore⟩ := List.pairwise_append.mp hasc
  constructor
  · rintro ⟨u, hu, hlt, hlabel⟩
    rcases List.mem_append.mp hu with hu | hu
    · exact ⟨u, hu, hlabel⟩
    rcases List.mem_cons.mp hu with rfl | hu
    · exact absurd hlt Std.lt_irrefl
    · exact absurd (Std.lt_trans hlt ((List.pairwise_cons.mp htail).1 u hu)) Std.lt_irrefl
  · rintro ⟨u, hu, hlabel⟩
    exact ⟨u, List.mem_append_left _ hu, hbefore u hu t List.mem_cons_self, hlabel⟩

/-- A finite map from labels to elements. -/
@[ext] structure ElementMap where
  /-- Every label with its element. -/
  entries : List (Name × Triple)
  /-- The entries stand in ascending order of the label. -/
  ascending : Ascending Prod.fst entries
deriving DecidableEq

namespace ElementMap

/-! ## The map -/

/-- The map without entries. -/
def empty : ElementMap := ⟨[], List.Pairwise.nil⟩

/-- The element entered under `label`. -/
def get? (m : ElementMap) (label : Name) : Option Triple :=
  (m.entries.find? (·.1 = label)).map (·.2)

/-- Whether anything is entered under `label`. -/
def containsKey (m : ElementMap) (label : Name) : Bool := (m.get? label).isSome

/-- Enters `t` under `label`, whatever was there before. -/
def insert (m : ElementMap) (label : Name) (t : Triple) : ElementMap :=
  ⟨insertBy Prod.fst (label, t) m.entries, m.ascending.insertBy⟩

/-- The elements in ascending order of the labels they are entered under. -/
def values (m : ElementMap) : List Triple := m.entries.map (·.2)

/-! ## The two passes -/

/-- One turn of the first pass. What is neither a node nor an edge is refused, and so is what comes with a
label that is taken; anything else is entered under its label. -/
def enter (graph : Name) (m : ElementMap) (t : Triple) : Except BuildError ElementMap :=
  if ¬t.IsNode ∧ ¬t.IsEdge then .error (.malformedTriple graph t)
  else if m.containsKey t.label then .error (.duplicateLabel graph t.label)
  else .ok (m.insert t.label t)

/-- The first pass: one turn for every triple, up to the first that is refused. -/
def enterAll (graph : Name) (m : ElementMap) (l : List Triple) : Except BuildError ElementMap :=
  l.foldlM (enter graph) m

/-- An end of the edge called `edge` is looked up, and has to be a node. -/
def checkEnd (graph edge : Name) (m : ElementMap) (endpoint : Name) : Except BuildError Unit :=
  if (m.get? endpoint).any (·.IsNode) then .ok () else .error (.danglingEdge graph edge endpoint)

/-- One turn of the second pass: the source of an edge, then its target. -/
def checkEnds (graph : Name) (m : ElementMap) (edge : Triple) : Except BuildError Unit :=
  [edge.source, edge.target].forM (checkEnd graph edge.label m)

/-- The second pass: one turn for every edge, up to the first with a missing end. -/
def checkEdges (graph : Name) (m : ElementMap) : Except BuildError Unit :=
  (m.values.filter Triple.IsEdge).forM (checkEnds graph m)

variable {graph label : Name} {m m' : ElementMap} {t u : Triple} {l l' seen rest : List Triple}
variable {error : BuildError}

/-! ## Look-up -/

theorem get?_eq_some_iff : m.get? label = some t ↔ (label, t) ∈ m.entries :=
  m.ascending.lookUp_eq_some_iff

theorem get?_insert {x : Name} :
    (m.insert label t).get? x = if x = label then some t else m.get? x :=
  m.ascending.lookUp_insertBy

theorem containsKey_iff : m.containsKey label = true ↔ ∃ t, m.get? label = some t :=
  Option.isSome_iff_exists

/-! ## What a map holds -/

/-- The map holds these triples, each under its own label, and nothing else. All are nodes and edges. -/
structure Holds (m : ElementMap) (l : List Triple) : Prop where
  /-- Under a label there is the triple that has it. -/
  get?_iff : ∀ label t, m.get? label = some t ↔ t ∈ l ∧ t.label = label
  /-- What is held is a node or an edge. -/
  kinds : ∀ t ∈ l, t.IsNode ∨ t.IsEdge

theorem holds_empty : empty.Holds [] := by
  refine ⟨fun label t => ?_, fun t ht => ?_⟩
  · show none = some t ↔ _
    simp
  · cases ht

/-- Of the triples that a map holds no two have one label. -/
theorem Holds.eq_of_label (h : m.Holds l) (ht : t ∈ l) (hu : u ∈ l) (hlabel : t.label = u.label) :
    t = u := by
  have hsome : m.get? u.label = some t := (h.get?_iff u.label t).mpr ⟨ht, hlabel⟩
  rw [(h.get?_iff u.label u).mpr ⟨hu, rfl⟩] at hsome
  exact (Option.some.inj hsome).symm

/-- There is one map that holds certain triples. -/
theorem Holds.unique (h : m.Holds l) (h' : m'.Holds l') (hmem : ∀ t, t ∈ l ↔ t ∈ l') : m = m' := by
  refine ElementMap.ext (m.ascending.ext m'.ascending fun entry => ?_)
  rw [← get?_eq_some_iff (m := m), ← get?_eq_some_iff (m := m'), h.get?_iff, h'.get?_iff, hmem]

theorem Holds.containsKey_iff (h : m.Holds l) :
    m.containsKey label = true ↔ ∃ t ∈ l, t.label = label := by
  rw [ElementMap.containsKey_iff]
  exact exists_congr fun t => h.get?_iff label t

theorem Holds.mem_values_iff (h : m.Holds l) : t ∈ m.values ↔ t ∈ l := by
  rw [values, List.mem_map]
  constructor
  · rintro ⟨⟨label, u⟩, hentry, rfl⟩
    exact ((h.get?_iff label u).mp (get?_eq_some_iff.mpr hentry)).1
  · intro ht
    exact ⟨(t.label, t), get?_eq_some_iff.mp ((h.get?_iff t.label t).mpr ⟨ht, rfl⟩), rfl⟩

/-- The values of a map are the triples it holds, in the order of their labels. -/
theorem Holds.values_eq (h : m.Holds l) : m.values = sortBy Triple.label l := by
  have hasc : Ascending Triple.label m.values := by
    refine List.pairwise_map.mpr (m.ascending.imp_of_mem fun {a b} ha hb hlt => ?_)
    have hkey : ∀ entry ∈ m.entries, entry.2.label = entry.1 := fun entry hentry =>
      ((h.get?_iff entry.1 entry.2).mp (get?_eq_some_iff.mpr hentry)).2
    rw [hkey a ha, hkey b hb]
    exact hlt
  refine hasc.ext Ascending.sortBy fun t => ?_
  rw [h.mem_values_iff, mem_sortBy_iff fun t ht u hu => h.eq_of_label ht hu]

/-- Looking a label up finds a node exactly if the node with this label is held. -/
theorem Holds.any_isNode_get?_iff (h : m.Holds l) :
    (m.get? label).any (·.IsNode) = true ↔ Triple.node label ∈ l := by
  rw [Option.any_eq_true]
  constructor
  · rintro ⟨t, ht, hnode⟩
    obtain ⟨hmem, rfl⟩ := (h.get?_iff label t).mp ht
    exact Triple.isNode_iff.mp (of_decide_eq_true hnode) ▸ hmem
  · intro hmem
    exact ⟨Triple.node label, (h.get?_iff label _).mpr ⟨hmem, rfl⟩, decide_eq_true Triple.isNode_node⟩

/-! ## The first pass -/

theorem enter_eq_ok_iff : m.enter graph t = .ok m' ↔
    (t.IsNode ∨ t.IsEdge) ∧ m.containsKey t.label = false ∧ m' = m.insert t.label t := by
  unfold enter
  split
  · rename_i hkind
    rw [← not_or] at hkind
    simp [hkind]
  · rename_i hkind
    rw [← not_or, Decidable.not_not] at hkind
    split
    · rename_i htaken
      simp [htaken]
    · rename_i hfree
      simp [hkind, hfree, eq_comm]

theorem enter_eq_error_iff : m.enter graph t = .error error ↔
    (¬(t.IsNode ∨ t.IsEdge) ∧ error = .malformedTriple graph t) ∨
    ((t.IsNode ∨ t.IsEdge) ∧ m.containsKey t.label = true ∧ error = .duplicateLabel graph t.label) := by
  unfold enter
  split
  · rename_i hkind
    rw [← not_or] at hkind
    simp only [hkind, Except.error.injEq, not_false_eq_true, true_and, false_and, or_false]
    exact eq_comm
  · rename_i hkind
    rw [← not_or, Decidable.not_not] at hkind
    split
    · rename_i htaken
      simp only [hkind, htaken, Except.error.injEq, not_true_eq_false, true_and, false_and, false_or]
      exact eq_comm
    · rename_i hfree
      simp [hkind, hfree]

/-- **The step.** With a triple let in, the map holds the triples of before and this one. -/
theorem Holds.enter (h : m.Holds seen) (henter : m.enter graph t = .ok m') :
    m'.Holds (seen ++ [t]) := by
  obtain ⟨hkind, hfree, rfl⟩ := enter_eq_ok_iff.mp henter
  have hnone : ∀ u ∈ seen, u.label ≠ t.label := by
    intro u hu hlabel
    rw [h.containsKey_iff.mpr ⟨u, hu, hlabel⟩] at hfree
    cases hfree
  refine ⟨fun label u => ?_, fun u hu => ?_⟩
  · rw [get?_insert, List.mem_append, List.mem_singleton]
    split
    · rename_i hlabel
      subst hlabel
      constructor
      · intro hsome
        cases hsome
        exact ⟨.inr rfl, rfl⟩
      · rintro ⟨hu | rfl, hlabel⟩
        · exact absurd hlabel (hnone u hu)
        · rfl
    · rename_i hlabel
      rw [h.get?_iff]
      refine and_congr_left fun hu => ⟨.inl, fun hmem => hmem.resolve_right fun heq => ?_⟩
      exact hlabel (heq ▸ hu.symm)
  · rcases List.mem_append.mp hu with hu | hu
    · exact h.kinds u hu
    · exact List.mem_singleton.mp hu ▸ hkind

/-- **The run.** A first pass that comes to its end leaves a map of all triples it has gone through. -/
theorem Holds.enterAll (h : m.Holds seen) (hrun : m.enterAll graph rest = .ok m') :
    m'.Holds (seen ++ rest) := by
  induction rest generalizing m seen with
  | nil =>
    cases hrun
    rw [List.append_nil]
    exact h
  | cons t rest ih =>
    rw [ElementMap.enterAll, List.foldlM_cons] at hrun
    cases henter : m.enter graph t with
    | error e =>
      rw [henter] at hrun
      cases hrun
    | ok m₁ =>
      rw [henter] at hrun
      have hnext : m'.Holds (seen ++ [t] ++ rest) := ih (h.enter henter) hrun
      rwa [List.append_assoc] at hnext

/-- **The step, refused.** The map holds what comes before a triple, so that the triple is refused for what
is wrong with it among all triples. -/
theorem Holds.enter_eq_error_iff (h : m.Holds seen) (hasc : Ascending id (seen ++ t :: rest)) :
    m.enter graph t = .error error ↔ Graph.defect graph (seen ++ t :: rest) t = some error := by
  rw [ElementMap.enter_eq_error_iff, Graph.defect_eq_some_iff, exists_lt_iff_of_ascending hasc,
    h.containsKey_iff]

/-- **The run, refused.** The first pass stops at the first triple that has a defect. -/
theorem Holds.enterAll_eq_error_iff (h : m.Holds seen) (hasc : Ascending id (seen ++ rest)) :
    m.enterAll graph rest = .error error ↔
      rest.findSome? (Graph.defect graph (seen ++ rest)) = some error := by
  induction rest generalizing m seen with
  | nil =>
    constructor
    · intro hrun
      cases hrun
    · intro hfound
      cases hfound
  | cons t rest ih =>
    rw [ElementMap.enterAll, List.foldlM_cons, List.findSome?_cons]
    cases henter : m.enter graph t with
    | error e =>
      rw [(h.enter_eq_error_iff hasc).mp henter]
      show Except.error e = .error error ↔ some e = some error
      rw [Except.error.injEq, Option.some.injEq]
    | ok m₁ =>
      have hclean : Graph.defect graph (seen ++ t :: rest) t = none := by
        refine Option.eq_none_iff_forall_ne_some.mpr fun e he => ?_
        rw [(h.enter_eq_error_iff hasc).mpr he] at henter
        cases henter
      rw [hclean]
      show m₁.enterAll graph rest = .error error ↔ _
      rw [List.append_cons] at hasc ⊢
      exact ih (h.enter henter) hasc

/-! ## The second pass -/

theorem Holds.checkEnd_eq {edge endpoint : Name} (h : m.Holds l) : m.checkEnd graph edge endpoint =
    if Triple.node endpoint ∈ m.values then .ok () else .error (.danglingEdge graph edge endpoint) := by
  have hiff : (m.get? endpoint).any (·.IsNode) = true ↔ Triple.node endpoint ∈ m.values := by
    rw [h.any_isNode_get?_iff, h.mem_values_iff]
  simp only [checkEnd, hiff]

/-- **The step.** The first end that is not found as a node is the first that is no node among the values. -/
theorem Holds.checkEnds_eq (h : m.Holds l) :
    m.checkEnds graph t = (Graph.danglingEnd graph m.values t).elim (.ok ()) .error := by
  show (m.checkEnd graph t.label t.source >>= fun _ =>
    m.checkEnd graph t.label t.target >>= fun _ => pure ()) = _
  rw [h.checkEnd_eq, h.checkEnd_eq, Graph.danglingEnd]
  by_cases hsource : Triple.node t.source ∈ m.values
  · rw [if_pos hsource, if_neg (not_not_intro hsource)]
    by_cases htarget : Triple.node t.target ∈ m.values
    · rw [if_pos htarget, if_neg (not_not_intro htarget)]
      rfl
    · rw [if_neg htarget, if_pos htarget]
      rfl
  · rw [if_neg hsource, if_pos hsource]
    rfl

/-- **The run.** The second pass stops at the first edge with a missing end. It passes over the nodes, which
are their own ends. -/
theorem Holds.checkEdges_eq (h : m.Holds l) : m.checkEdges graph =
    (m.values.findSome? (Graph.danglingEnd graph m.values)).elim (.ok ()) .error := by
  have hnode : ∀ t ∈ m.values, ¬t.IsEdge → Graph.danglingEnd graph m.values t = none := by
    intro t ht hedge
    have hkind : t.IsNode := (h.kinds t (h.mem_values_iff.mp ht)).resolve_right hedge
    have hself : Triple.node t.label ∈ m.values := Triple.isNode_iff.mp hkind ▸ ht
    exact Graph.danglingEnd_eq_none (hkind.1 ▸ hself) (hkind.2 ▸ hself)
  exact forM_filter_eq_elim_findSome? (fun _ => h.checkEnds_eq) hnode

end ElementMap

/-! ## Graphs as they are stored -/

/-- A graph as it is stored: its name, and its elements under their labels. -/
@[ext] structure IndexedGraph where
  /-- The name of the graph. -/
  name : Name
  /-- The elements under their labels. -/
  index : ElementMap
deriving DecidableEq

namespace IndexedGraph

/-- Makes a graph of the set of `triples`: each is entered in its turn, then the ends of the edges are looked
up. -/
def build (name : Name) (triples : List Triple) : Except BuildError IndexedGraph := do
  let index ← ElementMap.empty.enterAll name (sortBy id triples)
  index.checkEdges name
  return ⟨name, index⟩

/-- The elements in ascending order of their labels. -/
def elements (g : IndexedGraph) : List Triple := g.index.values

/-- The nodes in ascending order of their labels. -/
def nodes (g : IndexedGraph) : List Triple := g.elements.filter Triple.IsNode

/-- The edges in ascending order of their labels. -/
def edges (g : IndexedGraph) : List Triple := g.elements.filter Triple.IsEdge

/-- The element under `label`. -/
def get? (g : IndexedGraph) (label : Name) : Option Triple := g.index.get? label

/-- Whether `t` is the element under its own label. -/
def contains (g : IndexedGraph) (t : Triple) : Bool := g.get? t.label = some t

/-- The graph with its elements entered under their labels. -/
def ofGraph (g : Graph) : IndexedGraph where
  name := g.name
  index := {
    entries := g.elements.map fun t => (t.label, t)
    ascending := by
      rw [Ascending, List.pairwise_map]
      exact g.ascending }

variable {name : Name} {l : List Triple} {g : IndexedGraph} {error : BuildError}

/-! ## Views -/

/-- The graph has this name and shows these triples in every view. -/
structure Shows (g : IndexedGraph) (name : Name) (l : List Triple) : Prop where
  /-- The name is kept. -/
  name_eq : g.name = name
  /-- The elements stand in increasing order of their labels. -/
  ascending : g.elements.Pairwise fun t u => t.label < u.label
  /-- No element is shown twice. -/
  nodup : g.elements.Nodup
  /-- The elements are the listed triples. -/
  mem_elements : ∀ t, t ∈ g.elements ↔ t ∈ l
  /-- The nodes and the edges make up the elements. -/
  partition : (g.nodes ++ g.edges).Perm g.elements
  /-- The nodes are the listed nodes. -/
  mem_nodes : ∀ t, t ∈ g.nodes ↔ t ∈ l ∧ t.IsNode
  /-- The edges are the listed edges. -/
  mem_edges : ∀ t, t ∈ g.edges ↔ t ∈ l ∧ t.IsEdge
  /-- Contained are the listed triples. -/
  contains_iff : ∀ t, g.contains t = true ↔ t ∈ l
  /-- A label is looked up as the listed triple that has it. -/
  get?_iff : ∀ label t, g.get? label = some t ↔ t ∈ l ∧ t.label = label

theorem holds_ofGraph {g : Graph} : (ofGraph g).index.Holds g.elements := by
  refine ⟨fun label t => ?_, g.isNode_or_isEdge⟩
  rw [ElementMap.get?_eq_some_iff]
  show (label, t) ∈ g.elements.map (fun t => (t.label, t)) ↔ _
  rw [List.mem_map]
  constructor
  · rintro ⟨u, hu, heq⟩
    cases heq
    exact ⟨hu, rfl⟩
  · rintro ⟨ht, rfl⟩
    exact ⟨t, ht, rfl⟩

theorem elements_ofGraph {g : Graph} : (ofGraph g).elements = g.elements := by
  show (g.elements.map fun t => (t.label, t)).map (·.2) = g.elements
  rw [List.map_map]
  exact List.map_id _

theorem nodes_ofGraph {g : Graph} : (ofGraph g).nodes = g.nodes := by
  rw [nodes, Graph.nodes, elements_ofGraph]

theorem edges_ofGraph {g : Graph} : (ofGraph g).edges = g.edges := by
  rw [edges, Graph.edges, elements_ofGraph]

theorem get?_ofGraph {g : Graph} {label : Name} : (ofGraph g).get? label = g.get? label := by
  refine Option.ext fun t => ?_
  rw [Graph.get?_eq_some_iff]
  exact holds_ofGraph.get?_iff label t

theorem contains_ofGraph {g : Graph} {t : Triple} : (ofGraph g).contains t = g.contains t := by
  rw [contains, Graph.contains, get?_ofGraph, decide_eq_decide, Graph.get?_eq_some_iff]
  exact and_iff_left rfl

/-! ## Two passes, one answer -/

theorem build_of_enterAll_eq_error
    (h : ElementMap.empty.enterAll name (sortBy id l) = .error error) : build name l = .error error := by
  rw [build, h]
  rfl

theorem build_of_enterAll_eq_ok {index : ElementMap}
    (h : ElementMap.empty.enterAll name (sortBy id l) = .ok index) :
    build name l = (Graph.firstDanglingEnd name l).elim (.ok ⟨name, index⟩) .error := by
  have hholds : index.Holds (sortBy id l) := ElementMap.holds_empty.enterAll h
  rw [build, h]
  show (index.checkEdges name >>= fun _ => pure (⟨name, index⟩ : IndexedGraph)) = _
  rw [hholds.checkEdges_eq, hholds.values_eq, Graph.firstDanglingEnd]
  cases (sortBy Triple.label (sortBy id l)).findSome?
    (Graph.danglingEnd name (sortBy Triple.label (sortBy id l))) with
  | none => rfl
  | some e => rfl

/-- The first pass starts with the map that holds nothing, and goes through all triples. -/
theorem enterAll_eq_error_iff_firstDefect :
    ElementMap.empty.enterAll name (sortBy id l) = .error error ↔
      Graph.firstDefect name l = some error := by
  have hasc : Ascending id ([] ++ sortBy id l) := Ascending.sortBy
  exact ElementMap.holds_empty.enterAll_eq_error_iff hasc

theorem build_eq_error_iff :
    build name l = .error error ↔ Graph.ofTriples name l = .error error := by
  rw [Graph.ofTriples_eq_error_iff_first]
  cases hpass : ElementMap.empty.enterAll name (sortBy id l) with
  | error e =>
    rw [build_of_enterAll_eq_error hpass, enterAll_eq_error_iff_firstDefect.mp hpass]
    simp
  | ok index =>
    have hclean : Graph.firstDefect name l = none := by
      refine Option.eq_none_iff_forall_ne_some.mpr fun e he => ?_
      rw [enterAll_eq_error_iff_firstDefect.mpr he] at hpass
      cases hpass
    rw [build_of_enterAll_eq_ok hpass, hclean]
    cases Graph.firstDanglingEnd name l with
    | none => simp
    | some e => simp

/-- What comes out of both passes holds the listed triples. -/
theorem holds_of_build (h : build name l = .ok g) :
    g.name = name ∧ g.index.Holds (sortBy id l) := by
  cases hpass : ElementMap.empty.enterAll name (sortBy id l) with
  | error e =>
    rw [build_of_enterAll_eq_error hpass] at h
    cases h
  | ok index =>
    rw [build_of_enterAll_eq_ok hpass] at h
    cases hend : Graph.firstDanglingEnd name l with
    | none =>
      rw [hend] at h
      cases h
      exact ⟨rfl, ElementMap.holds_empty.enterAll hpass⟩
    | some e =>
      rw [hend] at h
      cases h

/-- **The two passes and `Graph.ofTriples` have one answer.** -/
theorem build_eq_map_ofTriples : build name l = (Graph.ofTriples name l).map ofGraph := by
  cases hbuild : build name l with
  | error e =>
    rw [build_eq_error_iff.mp hbuild]
    rfl
  | ok g =>
    cases hgraph : Graph.ofTriples name l with
    | error e =>
      rw [build_eq_error_iff.mpr hgraph] at hbuild
      cases hbuild
    | ok g' =>
      obtain ⟨hname, hholds⟩ := holds_of_build hbuild
      obtain ⟨hname', hmem⟩ := Graph.mem_elements_of_ofTriples hgraph
      have hindex : g.index = (ofGraph g').index := by
        refine hholds.unique holds_ofGraph fun t => ?_
        rw [mem_sortBy_id_iff, hmem]
      exact congrArg Except.ok (IndexedGraph.ext (hname.trans hname'.symm) hindex)

theorem build_eq_ok_iff :
    build name l = .ok g ↔ ∃ g', Graph.ofTriples name l = .ok g' ∧ ofGraph g' = g := by
  rw [build_eq_map_ofTriples]
  cases Graph.ofTriples name l with
  | error e =>
    constructor
    · intro h
      cases h
    · rintro ⟨g', hg', -⟩
      cases hg'
  | ok g' =>
    constructor
    · intro h
      exact ⟨g', rfl, Except.ok.inj h⟩
    · rintro ⟨g'', hg'', rfl⟩
      cases hg''
      rfl

theorem exists_build_iff : (∃ g, build name l = .ok g) ↔ ∃ g, Graph.ofTriples name l = .ok g := by
  constructor
  · rintro ⟨g, hg⟩
    obtain ⟨g', hg', -⟩ := build_eq_ok_iff.mp hg
    exact ⟨g', hg'⟩
  · rintro ⟨g', hg'⟩
    exact ⟨ofGraph g', build_eq_ok_iff.mpr ⟨g', hg', rfl⟩⟩

theorem shows_of_build (h : build name l = .ok g) : g.Shows name l := by
  obtain ⟨g', hg', rfl⟩ := build_eq_ok_iff.mp h
  obtain ⟨hname, hmem⟩ := Graph.mem_elements_of_ofTriples hg'
  refine ⟨hname, ?_, ?_, fun t => ?_, ?_, fun t => ?_, fun t => ?_, fun t => ?_, fun label t => ?_⟩
  · rw [elements_ofGraph]
    exact g'.ascending
  · rw [elements_ofGraph]
    exact Graph.nodup_elements
  · rw [elements_ofGraph, hmem]
  · rw [elements_ofGraph, nodes_ofGraph, edges_ofGraph]
    exact Graph.nodes_append_edges_perm
  · rw [nodes_ofGraph, Graph.mem_nodes_iff, hmem]
  · rw [edges_ofGraph, Graph.mem_edges_iff, hmem]
  · rw [contains_ofGraph, Graph.contains, decide_eq_true_eq, hmem]
  · rw [get?_ofGraph, Graph.get?_eq_some_iff, hmem]

/-! ## The constructor -/

/-- **What becomes of a list of triples** that are entered in a map one after the other. They make a graph if
and only if they are well formed, and the graph shows them in every view; otherwise the report names what is
wrong with the least defective triple, or else with the first dangling edge. Lists with the same triples have
the same answer, and it is the one that `Graph.ofTriples` gives. -/
theorem build_answers (name : Name) (l : List Triple) :
    ((∃ g, build name l = .ok g) ↔ Graph.WellFormed l) ∧
    (∀ g, build name l = .ok g → g.Shows name l) ∧
    (∀ error, build name l = .error error ↔ Graph.Refuses name l error) ∧
    (∀ l', (∀ t, t ∈ l ↔ t ∈ l') → build name l = build name l') ∧
    build name l = (Graph.ofTriples name l).map ofGraph := by
  refine ⟨exists_build_iff.trans Graph.exists_ofTriples_iff_wellFormed, fun _ => shows_of_build,
    fun _ => build_eq_error_iff.trans Graph.ofTriples_eq_error_iff, fun l' hmem => ?_,
    build_eq_map_ofTriples⟩
  rw [build_eq_map_ofTriples, build_eq_map_ofTriples, Graph.ofTriples_congr hmem]

/-- A loop listed before its end, with a repetition, makes a graph. A label that a node and an edge share is
reported before the triple that is half a node, which comes later in the order of triples. An edge is no end
of another. -/
theorem build_answers_loop_shared_label_and_edge_as_end :
    ∃ g loop shared astray,
      loop = [⟨⟨"x"⟩, ⟨"e"⟩, ⟨"x"⟩⟩, Triple.node ⟨"x"⟩, ⟨⟨"x"⟩, ⟨"e"⟩, ⟨"x"⟩⟩] ∧
      shared = [⟨⟨"z"⟩, ⟨"z"⟩, ⟨"y"⟩⟩, ⟨⟨"x"⟩, ⟨"e"⟩, ⟨"y"⟩⟩, Triple.node ⟨"x"⟩, Triple.node ⟨"e"⟩] ∧
      astray = [⟨⟨"x"⟩, ⟨"f"⟩, ⟨"e"⟩⟩, ⟨⟨"x"⟩, ⟨"e"⟩, ⟨"x"⟩⟩, Triple.node ⟨"x"⟩] ∧
      build ⟨"G"⟩ loop = .ok g ∧ Graph.WellFormed loop ∧ g.Shows ⟨"G"⟩ loop ∧
      build ⟨"G"⟩ shared = .error (.duplicateLabel ⟨"G"⟩ ⟨"e"⟩) ∧
      Graph.Refuses ⟨"G"⟩ shared (.duplicateLabel ⟨"G"⟩ ⟨"e"⟩) ∧
      build ⟨"G"⟩ astray = .error (.danglingEdge ⟨"G"⟩ ⟨"f"⟩ ⟨"e"⟩) ∧
      Graph.Refuses ⟨"G"⟩ astray (.danglingEdge ⟨"G"⟩ ⟨"f"⟩ ⟨"e"⟩) := by
  have hok : ∀ {l g}, build ⟨"G"⟩ l = .ok g → Graph.WellFormed l ∧ g.Shows ⟨"G"⟩ l := by
    intro l g hg
    obtain ⟨hiff, hshows, -⟩ := build_answers ⟨"G"⟩ l
    exact ⟨hiff.mp ⟨g, hg⟩, hshows g hg⟩
  have herror : ∀ {l error}, build ⟨"G"⟩ l = .error error → Graph.Refuses ⟨"G"⟩ l error := by
    intro l error he
    exact ((build_answers ⟨"G"⟩ l).2.2.1 error).mp he
  exact ⟨_, _, _, _, rfl, rfl, rfl, rfl, (hok rfl).1, (hok rfl).2, rfl, herror rfl, rfl, herror rfl⟩

end IndexedGraph

end GraphHom
