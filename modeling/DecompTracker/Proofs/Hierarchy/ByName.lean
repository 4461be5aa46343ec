import DecompTracker.Proofs.Hierarchy.References
import DecompTracker.Proofs.Hierarchy.Simulation

/-! Hierarchies told by names alone. Without its numbers a tree is a list of rows, one for each node,
with the name of the node that holds it; a graph is a list of pairs of names for each kind of edge.
Both can be read off the leading parts of the names and the details of the classes. -/
namespace DecompTracker.Hierarchy

/-- A node of the nested form, told without its number. -/
structure Tree.Row where
  name : String
  parent? : Option String
  kind : NodeKind
  methodCount? : Option Nat
  totalSize? : Option Nat
  deriving DecidableEq

def Tree.Row.of (name : String) (parent? : Option String) (details : Option ClassDetails) : Row :=
  ⟨name, parent?, .ofDetails details, details.map (·.methodCount), details.map (·.totalSize)⟩

/-- The root has no parent, and every other node is among the children of one. -/
def Tree.rows (t : Tree) : List Row :=
  .of t.name none t.details ::
    t.nodes.flatMap fun n => n.children.map fun c => .of c.name (some n.name) c.details

def Graph.nameOf? (g : Graph) (id : NodeId) : Option String :=
  (g.nodes.find? fun n => n.id = id).map FlatNode.name

/-- The names at both ends of the edges of one kind. -/
def Graph.pairs (g : Graph) (kind : EdgeKind) : List (Option String × Option String) :=
  (g.edgesOfKind kind).map fun e => (g.nameOf? e.source, g.nameOf? e.target)

/-! Rows of a tree -/

/-- Every node but the uppermost is a child of one node. -/
theorem Tree.nodes_perm (t : Tree) : t.nodes.Perm (t :: t.nodes.flatMap Tree.children) := by
  match t with
  | .node id name details children =>
    have hchildren : ∀ c ∈ children, c.nodes.Perm (c :: c.nodes.flatMap Tree.children) :=
      fun c _ => c.nodes_perm
    have hsplit := List.map_append_flatMap_perm children (fun c => c)
      fun c => c.nodes.flatMap Tree.children
    rw [List.map_id'] at hsplit
    rw [nodes_node, List.flatMap_cons, List.perm_cons, List.flatMap_assoc]
    exact (List.Perm.flatMap_left children hchildren).trans hsplit.symm

theorem Tree.mem_nodes_of_mem_children {t n c : Tree} (hn : n ∈ t.nodes) (hc : c ∈ n.children) :
    c ∈ t.nodes :=
  t.nodes_perm.mem_iff.mpr (List.mem_cons_of_mem _ (List.mem_flatMap.mpr ⟨n, hn, hc⟩))

/-- The name of the node that stands for a scope, or for none. -/
def scopeName (s? : Option QualifiedName) : String := s?.elim rootName QualifiedName.joined

/-- What an entry has a part in, apart from the class that it was first met in. -/
def Entry.held (e : Entry) : QualifiedName × Option ClassDetails := (e.path, e.details)

def rowOf (x : QualifiedName × Option ClassDetails) : Tree.Row :=
  .of x.1.joined (some (scopeName x.1.scope?)) x.2

namespace Draft

variable {d : Draft} {depth : Nat} {t : Tree}

theorem Shows.name_eq (hd : d.WellFormed) (hr : d.rooted) {m : Tree} {n : Node}
    (h : d.Shows m n) : m.name = scopeName (d.standsFor m.id n) := by
  rw [h.name, hd.named _ n h.found]
  cases hs : d.standsFor m.id n with
  | none =>
    have hid : m.id = 0 := by
      have hlt := root?_eq_some_iff.mp (standsFor_eq_none_iff.mp hs)
      rw [base_of_rooted hr] at hlt
      exact Nat.lt_one_iff.mp hlt
    have hpath : n.path = .parse rootName :=
      congrArg Entry.path (h.entry_root hd.toLinked hr hid)
    rw [hpath, QualifiedName.joined_parse]
    rfl
  | some s =>
    obtain ⟨-, rfl⟩ := standsFor_eq_some_iff.mp hs
    rfl

/-- A child is told by its entry alone. -/
theorem WellFormed.row_of_mem_children (hd : d.WellFormed) (hr : d.rooted)
    (h : d.subtree? depth 0 = some t) {m c : Tree} (hm : m ∈ t.nodes) (hc : c ∈ m.children) :
    some (Tree.Row.of c.name (some m.name) c.details) =
      (d.nodes[c.id]?).map fun n => rowOf n.entry.held := by
  obtain ⟨n, hn⟩ := exists_shows h m hm
  obtain ⟨n', hn'⟩ := exists_shows h c (Tree.mem_nodes_of_mem_children hm hc)
  have hmem : c.id ∈ childIds d.base d.paths (d.standsFor m.id n) := by
    rw [← hd.children _ n hn.found, ← hn.children]
    exact List.mem_map_of_mem hc
  obtain ⟨p, hp, hscope⟩ := mem_childIds_iff_above.mp hmem
  obtain ⟨-, rfl⟩ := standsFor_eq_some_iff.mp ((hd.above_iff hp hn'.found).mp rfl)
  rw [hn'.found, hn.name_eq hd hr, hn'.name, hd.named _ n' hn'.found, hn'.details, ← hscope]
  rfl

/-- Below its root the tree has one row for each entry. -/
theorem WellFormed.rows_perm (hd : d.WellFormed) (hr : d.rooted)
    (h : d.subtree? depth 0 = some t) :
    t.rows.Perm (.of rootName none none :: d.entries.map fun e => rowOf e.held) := by
  have hbase := base_of_rooted hr
  obtain ⟨hid, hname, hdetails⟩ := Tree.root_eq hd hr h
  have hids : ((t.nodes.flatMap Tree.children).map Tree.id).Perm
      (List.range' 1 (d.nodes.size - 1)) := by
    have hall := (t.nodes_perm.map Tree.id).symm.trans (hd.ids_perm hr h)
    have hsize := hd.base_le_size
    obtain ⟨n, hn⟩ : ∃ n, d.nodes.size = n + 1 := ⟨d.nodes.size - 1, by omega⟩
    rw [List.map_cons, hid, hn, List.range_eq_range', List.range'_succ, List.perm_cons] at hall
    rwa [hn, Nat.add_sub_cancel]
  have hentries : (List.range' 1 (d.nodes.size - 1)).map (fun id =>
      (d.nodes[id]?).map fun n => rowOf n.entry.held) =
        (d.entries.map fun e => rowOf e.held).map some := by
    refine List.ext_getElem? fun i => ?_
    simp only [List.getElem?_map, getElem?_entries, hbase, Option.map_map]
    by_cases hi : 1 + i < d.nodes.size
    · rw [List.getElem?_range' (by omega), Nat.one_mul, Option.map_some,
        Array.getElem?_eq_getElem hi]
      rfl
    · have hnone : d.nodes[1 + i]? = none := Array.getElem?_eq_none (Nat.not_lt.mp hi)
      have hlen : (List.range' 1 (d.nodes.size - 1)).length ≤ i := by
        rw [List.length_range']
        omega
      rw [List.getElem?_eq_none hlen, hnone]
      rfl
  have hrows : (t.nodes.flatMap fun m => m.children.map fun c =>
      Tree.Row.of c.name (some m.name) c.details).map some =
        ((t.nodes.flatMap Tree.children).map Tree.id).map fun id =>
          (d.nodes[id]?).map fun n => rowOf n.entry.held := by
    rw [List.map_map, List.map_flatMap, List.map_flatMap]
    refine List.flatMap_congr fun m hm => ?_
    rw [List.map_map]
    exact List.map_congr_left fun c hc => hd.row_of_mem_children hr h hm hc
  rw [Tree.rows, hname, hdetails, List.perm_cons]
  refine (List.map_perm_map_iff fun _ _ => Option.some.inj).mp ?_
  rw [hrows, ← hentries]
  exact hids.map _

end Draft

theorem Tree.rows_of_ofClasses {classes : List ClassStatus} {t : Tree}
    (h : Tree.ofClasses classes = .ok t) : (Outline.ofClasses classes).Holds classes ∧
      t.rows.Perm (.of rootName none none ::
        ((Outline.ofClasses classes).entries.map Entry.held).map rowOf) := by
  obtain ⟨hh, hsub⟩ := subtree_of_ofClasses h
  have hg := grown_treeDraft classes
  have hrows := hg.wellFormed.rows_perm (hg.rooted.trans rfl) hsub
  rw [hg.entries_eq] at hrows
  rw [List.map_map]
  exact ⟨hh, hrows⟩

/-! Pairs of a graph -/

section graph

variable {classes : List ClassStatus} {dependencies : DependencyMap} {g : Graph}

theorem Graph.Reflects.nameOf?_eq (h : g.Reflects classes) (id : NodeId) :
    g.nameOf? id = ((allLeads classes)[id]?).map QualifiedName.joined := by
  -- A node's place in the list is its number.
  have hplace : ∀ (i : Nat) (hi : i < g.nodes.length), g.nodes[i].id = i := by
    intro i hi
    have hid := congrArg (fun ids => ids[i]?) h.ids
    simpa [hi] using hid
  have hfind : (g.nodes.find? fun n => n.id = id) = g.nodes[id]? := by
    refine Option.ext fun n => ?_
    rw [List.find?_eq_some_iff_getElem, List.getElem?_eq_some_iff]
    constructor
    · rintro ⟨hp, i, hi, rfl, -⟩
      obtain rfl : i = id := by simpa [hplace i hi] using hp
      exact ⟨hi, rfl⟩
    · rintro ⟨hid, rfl⟩
      refine ⟨by simp [hplace id hid], id, hid, rfl, fun j hj => ?_⟩
      simpa [hplace j (hj.trans hid)] using hj.ne
  have hnames := congrArg (fun names => names[id]?) h.paths
  rw [Graph.nameOf?, hfind]
  simpa using hnames

theorem Graph.Reflects.nameOf?_idxOf (h : g.Reflects classes) {p : QualifiedName}
    (hp : p ∈ allLeads classes) : g.nameOf? ((allLeads classes).idxOf p) = some p.joined := by
  rw [h.nameOf?_eq, List.getElem?_idxOf hp]
  rfl

/-- A scope is paired with each name that lies directly in it. -/
theorem Graph.pairs_contains (h : Graph.ofClasses classes dependencies = .ok g) :
    g.pairs .contains = (allLeads classes).filterMap fun p =>
      p.scope?.map fun s => (some s.joined, some p.joined) := by
  have hreflects := reflects_of_ofClasses h
  obtain ⟨hh, rfl⟩ := eq_of_ofClasses h
  have hg := grown_graphDraft classes dependencies
  have hpaths : (graphDraft classes dependencies).paths = allLeads classes := by
    rw [Draft.paths, hg.outline, hh.paths]
  have hproper := Outline.proper_ofClasses classes
  rw [pairs, Draft.edgesOfKind_contains hg.wellFormed.toLinked (hg.rooted.trans rfl), hpaths,
    containments, List.map_filterMap]
  have hforget := congrArg (List.filterMap fun p : QualifiedName =>
    p.scope?.map fun s => (some s.joined, some p.joined)) (List.zipIdx_map_fst 0 (allLeads classes))
  rw [List.filterMap_map] at hforget
  rw [← hforget]
  refine List.filterMap_congr fun e he => ?_
  have hname : (allLeads classes)[e.2]? = some e.1 := List.mk_mem_zipIdx_iff_getElem?.mp he
  simp only [containment?, Option.map_map, Function.comp_apply]
  refine Option.map_congr fun s hs => ?_
  have hscope : s ∈ allLeads classes :=
    hh.paths ▸ hproper.scope_mem (hh.paths.symm ▸ List.mem_of_getElem? hname) hs
  simp only [Function.comp_apply, Nat.zero_add]
  rw [hreflects.nameOf?_idxOf hscope, hreflects.nameOf?_eq, hname]
  rfl

/-- A class is paired with each class that it refers to. -/
theorem Graph.pairs_dependsOn (h : Graph.ofClasses classes dependencies = .ok g) :
    g.pairs .dependsOn = classes.flatMap fun c =>
      (knownTargets classes dependencies c.name).map fun target =>
        (some c.name.joined, some target.joined) := by
  have hreflects := reflects_of_ofClasses h
  rw [pairs, (edges_of_ofClasses h).2, referenceEdges, List.map_flatMap]
  refine List.flatMap_congr fun c hc => ?_
  rw [List.map_map]
  refine List.map_congr_left fun target ht => ?_
  obtain ⟨-, htarget⟩ := List.mem_filter.mp ht
  obtain ⟨c', hc', rfl⟩ := List.mem_map.mp (of_decide_eq_true htarget)
  have hlead (x : ClassStatus) (hx : x ∈ classes) : x.name ∈ allLeads classes :=
    mem_allLeads.mpr ⟨x, hx, .refl _⟩
  simp only [Function.comp_apply]
  rw [hreflects.nameOf?_idxOf (hlead c hc), hreflects.nameOf?_idxOf (hlead c' hc')]

/-- Edges run between nodes of the graph. -/
theorem Graph.ends_named (h : Graph.ofClasses classes dependencies = .ok g) :
    ∀ e ∈ g.edges, (g.nameOf? e.source).isSome ∧ (g.nameOf? e.target).isSome := by
  intro e he
  rw [(edges_of_ofClasses h).1] at he
  have hpair (kind : EdgeKind) (hk : e ∈ g.edgesOfKind kind) :
      (g.nameOf? e.source, g.nameOf? e.target) ∈ g.pairs kind := List.mem_map_of_mem hk
  rcases List.mem_append.mp he with he | he
  · have hmem := hpair .contains he
    rw [pairs_contains h] at hmem
    obtain ⟨p, -, hp⟩ := List.mem_filterMap.mp hmem
    obtain ⟨s, -, heq⟩ := Option.map_eq_some_iff.mp hp
    simp only [Prod.mk.injEq] at heq
    simp [← heq.1, ← heq.2]
  · have hmem := hpair .dependsOn he
    rw [pairs_dependsOn h] at hmem
    obtain ⟨c, -, hc⟩ := List.mem_flatMap.mp hmem
    obtain ⟨target, -, heq⟩ := List.mem_map.mp hc
    simp only [Prod.mk.injEq] at heq
    simp [← heq.1, ← heq.2]

/-- The nodes of a graph are the entries of the outline, numbered from zero. -/
theorem Graph.nodes_of_ofClasses (h : Graph.ofClasses classes dependencies = .ok g) :
    g.nodes = (Outline.ofClasses classes).entries.zipIdx.map fun e => e.1.flatNode e.2 := by
  have hg := grown_graphDraft classes dependencies
  have hgraph := hg.wellFormed.toGraph_eq
  rw [hg.entries_eq, Draft.base_of_unrooted (hg.rooted.trans rfl), Draft.checked,
    show (graphDraft classes dependencies).toGraph = .ok g from h] at hgraph
  split at hgraph
  · exact congrArg Graph.nodes (Except.ok.inj hgraph)
  · simp at hgraph

theorem Graph.kinds_of_ofClasses (h : Graph.ofClasses classes dependencies = .ok g) :
    (g.nodes.map fun n => (n.name, n.kind)) =
      (Outline.ofClasses classes).entries.map fun e => (e.path.joined, .ofDetails e.details) := by
  have hforget := congrArg (List.map fun e : Entry => (e.path.joined, NodeKind.ofDetails e.details))
    (List.zipIdx_map_fst 0 (Outline.ofClasses classes).entries)
  rw [List.map_map] at hforget
  rw [nodes_of_ofClasses h, List.map_map]
  exact hforget

end graph

end DecompTracker.Hierarchy
