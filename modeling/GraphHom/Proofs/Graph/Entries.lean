import GraphHom.Document.Basic
import GraphHom.Proofs.Graph.Validation

/-!
# Graphs from entries

Nodes and edges given as entries make a graph if they are coherent (`Graph.Coherent`): the label of an edge
is used for nothing else. An entry brings its ends along, and what its label clashes with is always a triple
of the same label; so a clash is reported as a repeated label, and no edge ever dangles
(`Graph.ofTriples_ne_danglingEdge`). The order of the entries does not matter.

Graph definitions are built from entries, so the same holds of the graphs of a document
(`Graph.ofEntries_built`).
-/

namespace GraphHom

namespace Graph

variable {name n : Name} {nodes : List Name} {edges : List Triple} {entries : List Entry} {t : Triple}

/-- A node is listed, or an entry has it as an end. -/
def IsMentioned (nodes : List Name) (edges : List Triple) (n : Name) : Prop :=
  n ∈ nodes ∨ ∃ t ∈ edges, n = t.source ∨ n = t.target

/-- The label of an edge belongs to it alone. An entry whose label is both of its ends stands for a node. -/
structure Coherent (nodes : List Name) (edges : List Triple) : Prop where
  /-- A label equals both ends or neither. -/
  whole : ∀ t ∈ edges, t.source = t.label ↔ t.target = t.label
  /-- The label of an edge is the name of no node. -/
  apart : ∀ t ∈ edges, t.IsEdge → ¬IsMentioned nodes edges t.label
  /-- Different edges have different labels. -/
  distinct : ∀ t ∈ edges, ∀ u ∈ edges, t.IsEdge → u.IsEdge → t ≠ u → t.label ≠ u.label

/-- A result says about nodes and edges what building them should: there is a graph if they are coherent, it
has the nodes mentioned and the edges listed, and no edge is said to dangle. -/
structure Built (result : Except BuildError Graph) (name : Name) (nodes : List Name)
    (edges : List Triple) : Prop where
  /-- There is a graph of coherent nodes and edges only. -/
  ok_iff : (∃ g, result = .ok g) ↔ Coherent nodes edges
  /-- The graph has the name given. -/
  name_eq : ∀ g, result = .ok g → g.name = name
  /-- Its nodes are those listed and the ends of entries. -/
  mem_nodes : ∀ g, result = .ok g →
    ∀ t, t ∈ g.nodes ↔ ∃ n, IsMentioned nodes edges n ∧ t = Triple.node n
  /-- Its edges are the entries with a label unlike both ends. -/
  mem_edges : ∀ g, result = .ok g → ∀ t, t ∈ g.edges ↔ t ∈ edges ∧ t.IsEdge
  /-- No edge is reported as dangling. -/
  ne_danglingEdge : ∀ graph edge endpoint, result ≠ .error (.danglingEdge graph edge endpoint)

/-! ## The triples of entries -/

theorem mem_triples_iff (h : entries.Perm (nodes.map .node ++ edges.map .edge)) :
    t ∈ entries.flatMap Entry.triples ↔
      t ∈ edges ∨ ∃ n, IsMentioned nodes edges n ∧ t = Triple.node n := by
  have hentry : ∀ entry, entry ∈ entries ↔
      (∃ n ∈ nodes, .node n = entry) ∨ ∃ u ∈ edges, .edge u = entry := by
    intro entry
    rw [h.mem_iff, List.mem_append, List.mem_map, List.mem_map]
  rw [List.mem_flatMap]
  constructor
  · rintro ⟨entry, hmem, ht⟩
    rcases (hentry entry).mp hmem with ⟨n, hn, rfl⟩ | ⟨u, hu, rfl⟩
    · exact .inr ⟨n, .inl hn, List.mem_singleton.mp ht⟩
    · simp only [Entry.triples, List.mem_cons, List.not_mem_nil, or_false] at ht
      rcases ht with rfl | rfl | rfl
      · exact .inr ⟨_, .inr ⟨u, hu, .inl rfl⟩, rfl⟩
      · exact .inr ⟨_, .inr ⟨u, hu, .inr rfl⟩, rfl⟩
      · exact .inl hu
  · rintro (ht | ⟨n, hn | ⟨u, hu, hend⟩, rfl⟩)
    · exact ⟨.edge t, (hentry _).mpr (.inr ⟨t, ht, rfl⟩), by simp [Entry.triples]⟩
    · exact ⟨.node n, (hentry _).mpr (.inl ⟨n, hn, rfl⟩), by simp [Entry.triples]⟩
    · refine ⟨.edge u, (hentry _).mpr (.inr ⟨u, hu, rfl⟩), ?_⟩
      rcases hend with rfl | rfl <;> simp [Entry.triples]

section Triples

variable {l : List Triple}
  (hl : ∀ t, t ∈ l ↔ t ∈ edges ∨ ∃ n, IsMentioned nodes edges n ∧ t = Triple.node n)

include hl

theorem source_mem_of_mem_edges (ht : t ∈ edges) : Triple.node t.source ∈ l :=
  (hl _).mpr (.inr ⟨_, .inr ⟨t, ht, .inl rfl⟩, rfl⟩)

theorem target_mem_of_mem_edges (ht : t ∈ edges) : Triple.node t.target ∈ l :=
  (hl _).mpr (.inr ⟨_, .inr ⟨t, ht, .inr rfl⟩, rfl⟩)

/-- A triple that is no node is one of the entries. -/
theorem mem_edges_of_isEdge (ht : t ∈ l) (hedge : t.IsEdge) : t ∈ edges := by
  rcases (hl t).mp ht with ht | ⟨n, -, rfl⟩
  · exact ht
  · exact absurd Triple.isNode_node hedge.not_isNode

/-- Whether the triples are well formed can be seen from the entries. -/
theorem wellFormed_iff_coherent : WellFormed l ↔ Coherent nodes edges := by
  have hedges : ∀ t ∈ edges, t ∈ l := fun t ht => (hl t).mpr (.inl ht)
  constructor
  · intro h
    refine ⟨fun t ht => ?_, fun t ht hedge hmentioned => ?_, fun t ht u hu _ _ hne => ?_⟩
    · rcases h.kinds t (hedges t ht) with ⟨hsource, htarget⟩ | ⟨hsource, htarget⟩
      · exact iff_of_true hsource htarget
      · exact iff_of_false hsource htarget
    · -- the edge and the node would be two triples with one label
      have hnode : Triple.node t.label ∈ l := (hl _).mpr (.inr ⟨t.label, hmentioned, rfl⟩)
      refine h.labels t (hedges t ht) _ hnode (fun heq => ?_) rfl
      exact hedge.not_isNode (Triple.isNode_iff.mpr heq)
    · exact h.labels t (hedges t ht) u (hedges u hu) hne
  · intro h
    have hkinds : ∀ t ∈ l, t.IsNode ∨ t.IsEdge := by
      intro t ht
      rcases (hl t).mp ht with ht | ⟨n, -, rfl⟩
      · by_cases hsource : t.source = t.label
        · exact .inl ⟨hsource, (h.whole t ht).mp hsource⟩
        · exact .inr ⟨hsource, fun htarget => hsource ((h.whole t ht).mpr htarget)⟩
      · exact .inl Triple.isNode_node
    -- what is no edge is the node of a mentioned name
    have hnodes : ∀ t ∈ l, t.IsNode → IsMentioned nodes edges t.label := by
      intro t ht hnode
      rcases (hl t).mp ht with ht | ⟨n, hn, rfl⟩
      · exact .inr ⟨t, ht, .inl hnode.1.symm⟩
      · exact hn
    have hapart : ∀ t ∈ l, ∀ u ∈ l, t.IsEdge → u.IsNode → t.label ≠ u.label := by
      intro t ht u hu hedge hnode hlabel
      refine h.apart t (mem_edges_of_isEdge hl ht hedge) hedge ?_
      rw [hlabel]
      exact hnodes u hu hnode
    refine ⟨hkinds, fun t ht u hu hne => ?_, fun t ht hedge => ?_⟩
    · rcases hkinds t ht with htn | hte <;> rcases hkinds u hu with hun | hue
      · intro hlabel
        rw [Triple.isNode_iff.mp htn, Triple.isNode_iff.mp hun, hlabel] at hne
        exact hne rfl
      · exact (hapart u hu t ht hue htn).symm
      · exact hapart t ht u hu hte hun
      · exact h.distinct t (mem_edges_of_isEdge hl ht hte) u (mem_edges_of_isEdge hl hu hue) hte hue
          hne
    · have ht' := mem_edges_of_isEdge hl ht hedge
      exact ⟨source_mem_of_mem_edges hl ht', target_mem_of_mem_edges hl ht'⟩

theorem ofTriples_ne_danglingEdge (graph edge endpoint : Name) :
    ofTriples name l ≠ .error (.danglingEdge graph edge endpoint) := by
  intro h
  cases ofTriples_eq_error_iff.mp h with
  | sourceless _ ht hedge _ hsource =>
    exact hsource (source_mem_of_mem_edges hl (mem_edges_of_isEdge hl ht hedge))
  | targetless _ ht hedge _ _ htarget =>
    exact htarget (target_mem_of_mem_edges hl (mem_edges_of_isEdge hl ht hedge))

theorem built_ofTriples : Built (ofTriples name l) name nodes edges := by
  refine ⟨exists_ofTriples_iff_wellFormed.trans (wellFormed_iff_coherent hl), fun g hg => ?_,
    fun g hg t => ?_, fun g hg t => ?_, ofTriples_ne_danglingEdge hl⟩
  · exact (mem_elements_of_ofTriples hg).1
  · rw [mem_nodes_iff, (mem_elements_of_ofTriples hg).2, hl]
    constructor
    · rintro ⟨ht | hnode, hkind⟩
      · exact ⟨t.label, .inr ⟨t, ht, .inl hkind.1.symm⟩, Triple.isNode_iff.mp hkind⟩
      · exact hnode
    · rintro ⟨n, hn, rfl⟩
      exact ⟨.inr ⟨n, hn, rfl⟩, Triple.isNode_node⟩
  · rw [mem_edges_iff, (mem_elements_of_ofTriples hg).2]
    constructor
    · rintro ⟨ht, hedge⟩
      exact ⟨mem_edges_of_isEdge hl ht hedge, hedge⟩
    · rintro ⟨ht, hedge⟩
      exact ⟨(hl t).mpr (.inl ht), hedge⟩

end Triples

/-! ## Building -/

/-- **Building nodes and edges**, given as entries in any order, makes a graph if and only if they are
coherent; it has the nodes that are mentioned and the edges that are listed, and no edge is ever reported as
dangling. A document builds the graph of a definition in this way. -/
theorem ofEntries_built (name : Name) {nodes : List Name} {edges : List Triple} {entries : List Entry}
    (h : entries.Perm (nodes.map .node ++ edges.map .edge)) :
    Built (ofEntries name entries) name nodes edges ∧
    ∀ d : Document, d.graphs.find? (·.name = name) = some ⟨name, nodes, edges⟩ →
      ∃ result, d.graph name = result.mapError .invalid ∧ Built result name nodes edges := by
  refine ⟨built_ofTriples fun t => mem_triples_iff h, fun d hd => ?_⟩
  refine ⟨GraphDef.build ⟨name, nodes, edges⟩, ?_, built_ofTriples fun t => mem_triples_iff (.refl _)⟩
  rw [Document.graph, hd]

/-- The label of the first edge is an end of the second, whose triple comes before that of the first; the
third entry stands for a node. -/
theorem ofEntries_built_label_as_end :
    ∃ (nodes : List Name) (edges : List Triple) (entries : List Entry),
      nodes = [⟨"z"⟩] ∧ edges = [⟨⟨"x"⟩, ⟨"e"⟩, ⟨"y"⟩⟩, ⟨⟨"a"⟩, ⟨"1"⟩, ⟨"e"⟩⟩, ⟨⟨"y"⟩, ⟨"y"⟩, ⟨"y"⟩⟩] ∧
      entries = [.edge ⟨⟨"y"⟩, ⟨"y"⟩, ⟨"y"⟩⟩, .edge ⟨⟨"x"⟩, ⟨"e"⟩, ⟨"y"⟩⟩, .node ⟨"z"⟩,
        .edge ⟨⟨"a"⟩, ⟨"1"⟩, ⟨"e"⟩⟩] ∧
      entries.Perm (nodes.map .node ++ edges.map .edge) ∧
      Built (ofEntries ⟨"G"⟩ entries) ⟨"G"⟩ nodes edges ∧
      ofEntries ⟨"G"⟩ entries = .error (.duplicateLabel ⟨"G"⟩ ⟨"e"⟩) :=
  ⟨_, _, _, rfl, rfl, rfl, by decide, (ofEntries_built ⟨"G"⟩ (by decide)).1, rfl⟩

end Graph

end GraphHom
