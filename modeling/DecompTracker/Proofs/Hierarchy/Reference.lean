import DecompTracker.Forms.Report
import DecompTracker.Proofs.Hierarchy.Consistency
import DecompTracker.Proofs.Hierarchy.Subtree
import DecompTracker.Proofs.Json.Form
import DecompTracker.Proofs.QualifiedName.Canonical

/-! What the hierarchies of classes are, told from the list of classes alone. The nodes are the
leading parts of the names in the order of their first appearance, nodes named like a class have its
details, and a node lies in the node of its path without the last segment. Written as JSON, a node
has sizes exactly when it is named like a class. -/
namespace DecompTracker.Hierarchy

/-! The flat form -/

/-- What the flat form of some classes must be. The paths of its nodes are the leads of all names in
the order of their first appearance. -/
structure Graph.Reflects (g : Graph) (classes : List ClassStatus) : Prop where
  ids : g.nodes.map FlatNode.id = List.range g.nodes.length
  names : g.nodes.map FlatNode.name = writtenLeads classes
  paths : g.nodes.map FlatNode.name = (allLeads classes).map QualifiedName.joined
  classified : ∀ n ∈ g.nodes, ∀ status, n.kind = .classified status ↔
    ∃ c ∈ classes, c.name.joined = n.name ∧ c.status = status
  unclassified : ∀ n ∈ g.nodes, n.kind = .scope ↔ ∀ c ∈ classes, c.name.joined ≠ n.name
  increasing : ((g.edgesOfKind .contains).map Edge.target).Pairwise (· < ·)
  targets : (g.edgesOfKind .contains).map Edge.target =
    ((allLeads classes).zipIdx.filter fun e => 2 ≤ e.1.length).map Prod.snd
  sources : ∀ e ∈ g.edgesOfKind .contains, e.source < e.target ∧
    ∃ s p, (allLeads classes)[e.source]? = some s ∧ (allLeads classes)[e.target]? = some p ∧
      s.segments = p.segments.dropLast

namespace Draft

variable {d : Draft}

theorem mem_flatNodes {m : FlatNode} :
    m ∈ d.flatNodes ↔ ∃ n, d.nodes[m.id]? = some n ∧ m = ⟨m.id, n.name, n.kind⟩ := by
  simp only [flatNodes, List.mem_map]
  constructor
  · intro h
    obtain ⟨⟨n, id⟩, hn, rfl⟩ := h
    exact ⟨n, by simpa using List.mk_mem_zipIdx_iff_getElem?.mp hn, rfl⟩
  · intro h
    obtain ⟨n, hn, hm⟩ := h
    exact ⟨(n, m.id), List.mk_mem_zipIdx_iff_getElem?.mpr (by simpa using hn), hm.symm⟩

theorem map_id_flatNodes (d : Draft) :
    d.flatNodes.map FlatNode.id = List.range d.flatNodes.length := by
  simp only [flatNodes, List.map_map, List.length_map, List.length_zipIdx]
  rw [List.range_eq_range', ← List.zipIdx_map_snd 0 d.nodes.toList]
  rfl

theorem map_name_flatNodes (hd : d.Linked) (hbase : d.base = 0) :
    d.flatNodes.map FlatNode.name = d.paths.map QualifiedName.joined := by
  have hfst := congrArg (List.map Node.name) (List.zipIdx_map_fst 0 d.nodes.toList)
  have hnames : d.nodes.toList.map Node.name =
      d.nodes.toList.map fun n => n.path.joined := by
    refine List.map_congr_left fun n hn => ?_
    obtain ⟨id, hid⟩ := List.mem_iff_getElem?.mp hn
    exact hd.named id n (by simpa using hid)
  simp only [flatNodes, paths, Outline.paths, outline, entries, hbase, List.drop_zero,
    List.map_map]
  rw [List.map_map, hnames] at hfst
  exact hfst

theorem edgesOfKind_contains (hd : d.Linked) (hr : d.rooted = false) :
    (⟨d.flatNodes, d.edges.toList⟩ : Graph).edgesOfKind .contains = containments 0 d.paths := by
  rw [← base_of_unrooted hr]
  exact hd.edges

theorem entry_mem {id : Nat} {n : Node} (hn : d.nodes[id]? = some n) (hid : d.base ≤ id) :
    n.entry ∈ d.entries := by
  have hi : d.entries[id - d.base]? = some n.entry := by
    rw [getElem?_entries, Nat.add_sub_of_le hid, hn]
    rfl
  exact List.mem_of_getElem? hi

end Draft

theorem NodeKind.ofDetails_eq_classified_iff {details : Option ClassDetails}
    {status : StatusKind} :
    ofDetails details = .classified status ↔ ∃ x, details = some x ∧ x.status = status := by
  cases details <;> simp [ofDetails]

theorem NodeKind.ofDetails_eq_scope_iff {details : Option ClassDetails} :
    ofDetails details = .scope ↔ ∀ x, details ≠ some x := by
  cases details <;> simp [ofDetails]

theorem NodeKind.isClass_ofDetails (details : Option ClassDetails) :
    (ofDetails details).isClass = details.isSome := by
  cases details <;> rfl

section flat

variable {d : Draft} {classes : List ClassStatus} {m : FlatNode}

/-- A node of the flat form has the kind that the details of the class of its name give. -/
theorem Draft.flatNodes_kind (hd : d.WellFormed) (hbase : d.base = 0)
    (hh : d.outline.Holds classes) (hm : m ∈ d.flatNodes) :
    ∃ details, m.kind = .ofDetails details ∧ ∀ x, details = some x ↔
      ∃ c ∈ classes, c.name.joined = m.name ∧ c.toClassDetails = x := by
  obtain ⟨n, hn, heq⟩ := mem_flatNodes.mp hm
  refine ⟨n.details, by rw [heq, Node.kind], ?_⟩
  have hname : m.name = n.entry.path.joined := by
    rw [heq]
    exact hd.named _ n hn
  rw [hname]
  exact hh.details_iff_joined hd.proper (entry_mem hn (by omega))

theorem Draft.flatNodes_classified_iff (hd : d.WellFormed) (hbase : d.base = 0)
    (hh : d.outline.Holds classes) (hm : m ∈ d.flatNodes) (status : StatusKind) :
    m.kind = .classified status ↔
      ∃ c ∈ classes, c.name.joined = m.name ∧ c.status = status := by
  obtain ⟨details, hkind, hdetails⟩ := d.flatNodes_kind hd hbase hh hm
  rw [hkind, NodeKind.ofDetails_eq_classified_iff]
  constructor
  · intro h
    obtain ⟨x, hx, rfl⟩ := h
    obtain ⟨c, hc, hj, rfl⟩ := (hdetails x).mp hx
    exact ⟨c, hc, hj, rfl⟩
  · intro h
    obtain ⟨c, hc, hj, rfl⟩ := h
    exact ⟨_, (hdetails _).mpr ⟨c, hc, hj, rfl⟩, rfl⟩

theorem Draft.flatNodes_scope_iff (hd : d.WellFormed) (hbase : d.base = 0)
    (hh : d.outline.Holds classes) (hm : m ∈ d.flatNodes) :
    m.kind = .scope ↔ ∀ c ∈ classes, c.name.joined ≠ m.name := by
  obtain ⟨details, hkind, hdetails⟩ := d.flatNodes_kind hd hbase hh hm
  rw [hkind, NodeKind.ofDetails_eq_scope_iff]
  constructor
  · intro h c hc hj
    exact h _ ((hdetails _).mpr ⟨c, hc, hj, rfl⟩)
  · intro h x hx
    obtain ⟨c, hc, hj, -⟩ := (hdetails x).mp hx
    exact h c hc hj

theorem map_target_allLeads (classes : List ClassStatus) :
    (containments 0 (allLeads classes)).map Edge.target =
      ((allLeads classes).zipIdx.filter fun e => 2 ≤ e.1.length).map Prod.snd := by
  rw [map_target_containments]
  refine congrArg (List.map Prod.snd) (List.filter_congr fun e _ => ?_)
  simp only [← QualifiedName.isSome_scope?_iff, Bool.decide_eq_true]

/-- A containment edge comes from the path without the last segment. -/
theorem source_of_mem_containments (hp : d.outline.Proper) {e : Edge}
    (he : e ∈ containments 0 d.paths) :
    e.source < e.target ∧ ∃ s p, d.paths[e.source]? = some s ∧ d.paths[e.target]? = some p ∧
      s.segments = p.segments.dropLast := by
  obtain ⟨i, j, p, s, hi, hj, hlt, hs, hp, hps⟩ := ends_of_mem_containments hp.scopes he
  rw [Nat.zero_add] at hi hj
  rw [hi, hj]
  obtain ⟨short, hshort⟩ := QualifiedName.scope?_eq_some_iff.mp hps
  exact ⟨hlt, s, p, hs, hp, by simp [hshort]⟩

theorem Graph.reflects_of_wellFormed (hd : d.WellFormed) (hr : d.rooted = false)
    (hh : d.outline.Holds classes) :
    (⟨d.flatNodes, d.edges.toList⟩ : Graph).Reflects classes := by
  have hpaths : d.paths = allLeads classes := hh.paths
  have hbase := Draft.base_of_unrooted hr
  have hedges := Draft.edgesOfKind_contains hd.toLinked hr
  have hnames := Draft.map_name_flatNodes hd.toLinked hbase
  rw [hpaths] at hnames
  refine ⟨d.map_id_flatNodes, ?_, hnames, fun m hm => d.flatNodes_classified_iff hd hbase hh hm,
    fun m hm => d.flatNodes_scope_iff hd hbase hh hm, ?_, ?_, ?_⟩
  · rw [hnames, hh.map_joined_allLeads hd.proper]
  · rw [hedges, map_target_containments]
    exact pairwise_numbers _
  · rw [hedges, hpaths, map_target_allLeads]
  · intro e he
    rw [hedges] at he
    rw [← hpaths]
    exact source_of_mem_containments hd.proper he

end flat

/-! The nested form -/

/-- What a node is written as, apart from its number, its name and its children. -/
structure Tree.IsWritten (n : Tree) (kind : String) (methodCount? totalSize? : Option Nat) :
    Prop where
  kind : n.toJson.under? ["type"] = some (.ofText kind)
  methodCount : n.toJson.under? ["numMethods"] = methodCount?.map .nat
  totalSize : n.toJson.under? ["totalBinarySize"] = totalSize?.map .nat

theorem Tree.isWritten (n : Tree) : n.IsWritten n.kind.word (n.details.map (·.methodCount))
    (n.details.map (·.totalSize)) := by
  cases n with
  | node id name details children => cases details <;> exact ⟨rfl, rfl, rfl⟩

theorem Tree.isWritten_of_details {n : Tree} {x : ClassDetails} (h : n.details = some x) :
    n.IsWritten x.status.word (some x.methodCount) (some x.totalSize) := by
  have hwritten := n.isWritten
  rwa [kind, h] at hwritten

theorem Tree.isWritten_of_scope {n : Tree} (h : n.details = none) :
    n.IsWritten "namespace" none none := by
  have hwritten := n.isWritten
  rwa [kind, h] at hwritten

/-- What the nested form of some classes must be. The root stands for no lead, whatever its name. -/
structure Tree.Reflects (t : Tree) (classes : List ClassStatus) : Prop where
  root : t.id = 0 ∧ t.name = rootName ∧ t.details = none
  count : t.count = (writtenLeads classes).length + 1
  classCount : t.classCount = (classes.map ClassStatus.name).eraseDups.length
  classNodes : ∀ n ∈ t.nodes, n.id ≠ 0 → ∀ c ∈ classes, c.name.joined = n.name →
    n.IsWritten c.status.word (some c.methodCount) (some c.totalSize)
  scopeNodes : ∀ n ∈ t.nodes, (n.id = 0 ∨ ∀ c ∈ classes, c.name.joined ≠ n.name) →
    n.IsWritten "namespace" none none
  details : ∀ n ∈ t.nodes, ∀ x, n.details = some x ↔
    n.id ≠ 0 ∧ ∃ c ∈ classes, c.name.joined = n.name ∧ c.toClassDetails = x

theorem Draft.Shows.entry_root {d : Draft} (hd : d.Linked) (hr : d.rooted) {m : Tree} {n : Node}
    (h : d.Shows m n) (hid : m.id = 0) : n.entry = rootNode.entry := by
  obtain ⟨n', hn', he⟩ := hd.root hr
  have hn := h.found
  rw [hid, hn'] at hn
  rw [← Option.some.inj hn, he]

theorem Draft.Linked.map_entry_eq {d : Draft} (hd : d.Linked) (hr : d.rooted) :
    d.nodes.toList.map Node.entry = rootNode.entry :: d.entries := by
  obtain ⟨n, hn, he⟩ := hd.root hr
  have hhead : (d.nodes.toList.map Node.entry)[0]? = some rootNode.entry := by
    simp [hn, he]
  rw [entries, base_of_rooted hr]
  cases hl : d.nodes.toList.map Node.entry with
  | nil => simp [hl] at hhead
  | cons e es =>
    rw [hl] at hhead
    simpa using hhead

section nested

variable {d : Draft} {classes : List ClassStatus} {depth : Nat} {t : Tree}

theorem Tree.details_perm (hd : d.WellFormed) (hr : d.rooted)
    (h : d.subtree? depth 0 = some t) :
    (t.nodes.map Tree.details).Perm (none :: d.entries.map Entry.details) := by
  have hheld : d.nodes.toList.map Node.details = none :: d.entries.map Entry.details := by
    have hmap := congrArg (List.map Entry.details) (hd.map_entry_eq hr)
    rw [List.map_map] at hmap
    exact hmap
  exact hheld ▸ hd.shown_perm hr h fun m n hs => hs.details

theorem Tree.count_eq (hd : d.WellFormed) (hr : d.rooted) (hh : d.outline.Holds classes)
    (h : d.subtree? depth 0 = some t) : t.count = (writtenLeads classes).length + 1 := by
  have hlen := (details_perm hd hr h).length_eq
  rw [List.length_map, List.length_cons, List.length_map] at hlen
  rw [count, hlen, ← hh.map_joined_allLeads hd.proper, ← hh.paths, List.length_map,
    Outline.paths, List.length_map]
  rfl

theorem Tree.classCount_eq (hd : d.WellFormed) (hr : d.rooted) (hh : d.outline.Holds classes)
    (h : d.subtree? depth 0 = some t) :
    t.classCount = (classes.map ClassStatus.name).eraseDups.length := by
  have hcount := (details_perm hd hr h).countP_eq Option.isSome
  rw [List.countP_map, List.countP_cons_of_neg (by simp), List.countP_map] at hcount
  rw [← hh.countP_details hd.proper]
  refine Eq.trans (List.countP_congr fun n _ => ?_) hcount
  rw [kind, NodeKind.isClass_ofDetails]
  rfl

theorem Tree.root_eq (hd : d.WellFormed) (hr : d.rooted) (h : d.subtree? depth 0 = some t) :
    t.id = 0 ∧ t.name = rootName ∧ t.details = none := by
  have hid := Draft.id_of_subtree h
  obtain ⟨n, hn⟩ := Draft.exists_shows h t t.self_mem_nodes
  have hroot := hn.entry_root hd.toLinked hr hid
  have hpath : n.path = .parse rootName := congrArg Entry.path hroot
  refine ⟨hid, ?_, ?_⟩
  · rw [hn.name, hd.named _ n hn.found, hpath, QualifiedName.joined_parse]
  · rw [hn.details]
    exact congrArg Entry.details hroot

/-- A node has the details of the class it is named like, unless it is the root. -/
theorem Tree.details_iff (hd : d.WellFormed) (hr : d.rooted) (hh : d.outline.Holds classes)
    (h : d.subtree? depth 0 = some t) {m : Tree} (hm : m ∈ t.nodes) (x : ClassDetails) :
    m.details = some x ↔
      m.id ≠ 0 ∧ ∃ c ∈ classes, c.name.joined = m.name ∧ c.toClassDetails = x := by
  obtain ⟨n, hn⟩ := Draft.exists_shows h m hm
  by_cases hid : m.id = 0
  · have hroot : n.details = none := congrArg Entry.details (hn.entry_root hd.toLinked hr hid)
    simp [hn.details, hroot, hid]
  · have hle : d.base ≤ m.id := Draft.base_of_rooted hr ▸ Nat.pos_of_ne_zero hid
    have hiff := hh.details_iff_joined hd.proper (Draft.entry_mem hn.found hle) x
    rw [hn.details, hn.name, hd.named _ n hn.found]
    exact hiff.trans ⟨fun he => ⟨hid, he⟩, fun he => he.2⟩

theorem Tree.reflects_of_wellFormed (hd : d.WellFormed) (hr : d.rooted)
    (hh : d.outline.Holds classes) (h : d.subtree? depth 0 = some t) : t.Reflects classes := by
  have hdetails {m : Tree} (hm : m ∈ t.nodes) := details_iff hd hr hh h hm
  refine ⟨root_eq hd hr h, count_eq hd hr hh h, classCount_eq hd hr hh h,
    fun m hm hid c hc hj => ?_, fun m hm hscope => ?_, fun m hm => hdetails hm⟩
  · exact isWritten_of_details ((hdetails hm _).mpr ⟨hid, c, hc, hj, rfl⟩)
  · refine isWritten_of_scope (Option.eq_none_iff_forall_ne_some.mpr fun x hx => ?_)
    obtain ⟨hid, c, hc, hj, -⟩ := (hdetails hm x).mp hx
    exact hscope.elim hid fun hnone => hnone c hc hj

end nested

/-! Both forms of a list of classes -/

theorem exists_subtree_treeDraft (classes : List ClassStatus) :
    ∃ t, (treeDraft classes).subtree? (treeDraft classes).nodes.size 0 = some t := by
  have hg := grown_treeDraft classes
  have hr : (treeDraft classes).rooted := hg.rooted.trans rfl
  obtain ⟨n, hn, -⟩ := hg.wellFormed.root hr
  have hsize := (Array.getElem?_eq_some_iff.mp hn).1
  exact hg.wellFormed.exists_subtree hsize (by omega)

/-- The two forms are built together, from the same outline. -/
theorem ofClasses_cases (classes : List ClassStatus) (dependencies : DependencyMap) :
    (∃ e, Tree.ofClasses classes = .error e ∧ Graph.ofClasses classes dependencies = .error e) ∨
      ∃ t, (Outline.ofClasses classes).Holds classes ∧
        (treeDraft classes).subtree? (treeDraft classes).nodes.size 0 = some t ∧
        Tree.ofClasses classes = .ok t ∧
        Graph.ofClasses classes dependencies = .ok ⟨(graphDraft classes dependencies).flatNodes,
          (graphDraft classes dependencies).edges.toList⟩ := by
  obtain ⟨t, ht⟩ := exists_subtree_treeDraft classes
  rw [Tree.ofClasses_eq, Graph.ofClasses_eq]
  by_cases h : (Outline.ofClasses classes).conflicts = []
  · refine .inr ⟨t, (Outline.conflicts_ofClasses classes).2 h, ht, ?_, ?_⟩ <;> simp [h, ht]
  · exact .inl ⟨_, if_neg h, if_neg h⟩

/-- A tree that was built shows the draft it was built from, which holds the classes. -/
theorem Tree.subtree_of_ofClasses {classes : List ClassStatus} {t : Tree}
    (h : Tree.ofClasses classes = .ok t) :
    (Outline.ofClasses classes).Holds classes ∧
      (treeDraft classes).subtree? (treeDraft classes).nodes.size 0 = some t := by
  rcases ofClasses_cases classes .empty with ⟨e, he, -⟩ | ⟨t', hh, hsub, ht, -⟩
  · simp [h] at he
  · obtain rfl := Except.ok.inj (h.symm.trans ht)
    exact ⟨hh, hsub⟩

/-- Of two lists that both have compatible classes or both have not, all forms are built or none. -/
theorem ofClasses_alike {classes classes' : List ClassStatus}
    (h : (classes.Pairwise fun x y => ¬ x.Conflicts y) ↔
      classes'.Pairwise fun x y => ¬ x.Conflicts y) (dependencies : DependencyMap) :
    ((∃ e, Tree.ofClasses classes = .error e ∧ Graph.ofClasses classes dependencies = .error e) ∧
      ∃ e, Tree.ofClasses classes' = .error e ∧ Graph.ofClasses classes' dependencies = .error e) ∨
    ∃ t t' g g', Tree.ofClasses classes = .ok t ∧ Tree.ofClasses classes' = .ok t' ∧
      Graph.ofClasses classes dependencies = .ok g ∧
      Graph.ofClasses classes' dependencies = .ok g' := by
  rw [← exists_tree_iff, ← exists_tree_iff] at h
  rcases ofClasses_cases classes dependencies with ⟨e, ht, hg⟩ | ⟨t, -, -, ht, hg⟩ <;>
    rcases ofClasses_cases classes' dependencies with ⟨e', ht', hg'⟩ | ⟨t', -, -, ht', hg'⟩
  · exact .inl ⟨⟨e, ht, hg⟩, e', ht', hg'⟩
  · obtain ⟨t, hok⟩ := h.mpr ⟨t', ht'⟩
    simp [hok] at ht
  · obtain ⟨t', hok⟩ := h.mp ⟨t, ht⟩
    simp [hok] at ht'
  · exact .inr ⟨t, t', _, _, ht, ht', hg, hg'⟩

theorem ofClasses_reflect {classes : List ClassStatus} {dependencies : DependencyMap} {g : Graph}
    (h : Graph.ofClasses classes dependencies = .ok g) :
    g.Reflects classes ∧ ∃ t, Tree.ofClasses classes = .ok t ∧ t.Reflects classes := by
  rcases ofClasses_cases classes dependencies with ⟨e, -, hg⟩ | ⟨t, hh, hsub, ht, hg⟩
  · rw [h] at hg
    simp at hg
  · have hgraph := grown_graphDraft classes dependencies
    have htree := grown_treeDraft classes
    have hr : (graphDraft classes dependencies).rooted = false := hgraph.rooted.trans rfl
    rw [h] at hg
    obtain rfl := Except.ok.inj hg
    refine ⟨Graph.reflects_of_wellFormed hgraph.wellFormed hr ?_, t, ht,
      Tree.reflects_of_wellFormed htree.wellFormed (htree.rooted.trans rfl) ?_ hsub⟩
    · rw [hgraph.outline]
      exact hh
    · rw [htree.outline]
      exact hh

/-- A namespace that becomes a class, a class within a class, and one class given twice. -/
def nestedClasses : List ClassStatus :=
  [{ name := .parse "ksys::act::Actor", status := .partly, methodCount := 3, totalSize := 96 },
    { name := .parse "ksys::act", status := .decompiled, methodCount := 1, totalSize := 8 },
    { name := .parse "ksys::act::Actor::State", status := .decompiled, methodCount := 2,
      totalSize := 16 },
    { name := .parse "root", status := .undecompiled, methodCount := 0, totalSize := 0 },
    { name := .parse "ksys::act", status := .decompiled, methodCount := 1, totalSize := 8 }]

example : writtenLeads nestedClasses = ["ksys", "ksys::act", "ksys::act::Actor",
    "ksys::act::Actor::State", "root"] := by decide

theorem ofClasses_reflect_nestedClasses : ∃ g, Graph.ofClasses nestedClasses .empty = .ok g ∧
    g.Reflects nestedClasses ∧
      ∃ t, Tree.ofClasses nestedClasses = .ok t ∧ t.Reflects nestedClasses := by
  obtain ⟨g, hg⟩ := (exists_graph_iff nestedClasses .empty).mpr (by decide)
  exact ⟨g, hg, ofClasses_reflect hg⟩

end DecompTracker.Hierarchy
