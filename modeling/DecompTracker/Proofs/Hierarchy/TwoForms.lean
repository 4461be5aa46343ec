import DecompTracker.Proofs.Hierarchy.Reference

/-! Agreement of the two forms. Their drafts have one outline and differ by the root alone, so the
numbers of the nested form are one larger, and the children of a node are what the containment edges
of the flat form give. -/
namespace DecompTracker.Hierarchy

/-- The nested form has the nodes of the flat form, each with a number one larger, below a root. -/
structure SameHierarchy (t : Tree) (g : Graph) : Prop where
  numbered : g.nodes.map FlatNode.id = List.range g.nodes.length
  ids : t.ids.Perm (List.range (g.nodes.length + 1))
  nodes : ∀ m ∈ t.nodes, ∀ n ∈ g.nodes, m.id = n.id + 1 → m.name = n.name ∧ m.kind = n.kind ∧
    m.children.map Tree.id =
      ((g.edgesOfKind .contains).filter fun e => e.source = n.id).map fun e => e.target + 1
  root : t.id = 0 ∧ t.children.map Tree.id =
    (g.nodes.filter fun n => n.id ∉ (g.edgesOfKind .contains).map Edge.target).map
      fun n => n.id + 1

namespace Draft

variable {dt dg : Draft}

theorem length_flatNodes (d : Draft) : d.flatNodes.length = d.nodes.size := by simp [flatNodes]

/-- Nodes of both drafts that stand for the same path hold the same. -/
theorem entry_eq_of_outline_eq (hr : dt.rooted) (hr' : dg.rooted = false)
    (ho : dt.outline = dg.outline) {i : Nat} {m n : Node} (hm : dt.nodes[i + 1]? = some m)
    (hn : dg.nodes[i]? = some n) : m.entry = n.entry := by
  have hentries : dt.entries = dg.entries := congrArg Outline.entries ho
  have hi := congrArg (fun es => es[i]?) hentries
  simp only [getElem?_entries, base_of_rooted hr, base_of_unrooted hr', Nat.zero_add,
    Nat.add_comm 1 i, hm, hn, Option.map_some] at hi
  exact Option.some.inj hi

theorem children_eq_targets (ht : dt.WellFormed) (hr : dt.rooted) (ho : dt.outline = dg.outline)
    {i : Nat} {m : Node} (hm : dt.nodes[i + 1]? = some m) :
    m.children = ((containments 0 dg.paths).filter fun e => e.source = i).map
      fun e => e.target + 1 := by
  have hpaths : dt.paths = dg.paths := congrArg Outline.paths ho
  have hbase := base_of_rooted hr
  have hstands : dt.standsFor (i + 1) m = some m.path :=
    standsFor_eq_some_iff.mpr ⟨by omega, rfl⟩
  have hpath : dg.paths[i]? = some m.path := by
    rw [← hpaths, getElem?_paths, hbase, Nat.add_comm 1 i, hm]
    rfl
  have hproper : dg.outline.Proper := ho ▸ ht.proper
  have hedges : ((containments 0 dg.paths).filter fun e => e.source = 0 + i).map Edge.target =
      childIds 0 dg.paths (some m.path) :=
    map_target_filter_source hproper.nodup_paths (fun q hq s hs => hproper.scope_mem hq hs) hpath
  rw [ht.children _ m hm, hstands, hbase, hpaths, childIds_succ, ← hedges, List.map_map]
  simp only [Nat.zero_add]
  rfl

theorem root_children_eq (ht : dt.WellFormed) (hr : dt.rooted) (hr' : dg.rooted = false)
    (ho : dt.outline = dg.outline) {m : Node} (hm : dt.nodes[0]? = some m) :
    m.children = (dg.flatNodes.filter fun n =>
      n.id ∉ (containments 0 dg.paths).map Edge.target).map fun n => n.id + 1 := by
  have hpaths : dt.paths = dg.paths := congrArg Outline.paths ho
  have hstands : dt.standsFor 0 m = none := by simp [standsFor, root?, hr]
  have hlen : dg.paths.length = dg.flatNodes.length := by
    rw [length_paths, base_of_unrooted hr', length_flatNodes, Nat.sub_zero]
  have hids := dg.map_id_flatNodes
  rw [ht.children _ m hm, hstands, base_of_rooted hr, hpaths, childIds_succ, ← filter_not_target,
    ← List.range_eq_range', hlen, ← hids, List.filter_map, List.map_map]
  rfl

end Draft

theorem sameHierarchy {dt dg : Draft} (ht : dt.WellFormed) (hg : dg.WellFormed) (hr : dt.rooted)
    (hr' : dg.rooted = false) (ho : dt.outline = dg.outline) {depth : Nat} {t : Tree}
    (h : dt.subtree? depth 0 = some t) :
    SameHierarchy t ⟨dg.flatNodes, dg.edges.toList⟩ := by
  have hsize : dt.nodes.size = dg.flatNodes.length + 1 := by
    have hlen : dt.paths.length = dg.paths.length := congrArg (fun o => o.paths.length) ho
    have := ht.size_eq
    have := hg.size_eq
    have := Draft.base_of_rooted hr
    have := Draft.base_of_unrooted hr'
    rw [Draft.length_flatNodes]
    omega
  have hcontains := Draft.edgesOfKind_contains hg.toLinked hr'
  refine ⟨dg.map_id_flatNodes, hsize ▸ ht.ids_perm hr h, ?_, ?_⟩
  · intro m hm n hn hid
    obtain ⟨m', hshows⟩ := Draft.exists_shows h m hm
    obtain ⟨n', hn', hflat⟩ := Draft.mem_flatNodes.mp hn
    have hm' := hshows.found
    rw [hid] at hm'
    have he := Draft.entry_eq_of_outline_eq hr hr' ho hm' hn'
    have hpath : m'.path = n'.path := congrArg Entry.path he
    have hdetails : m'.details = n'.details := congrArg Entry.details he
    rw [hcontains, hshows.children, Draft.children_eq_targets ht hr ho hm']
    refine ⟨?_, ?_, rfl⟩
    · rw [hshows.name, hflat, ht.named _ m' hm', hg.named _ n' hn', hpath]
    · rw [Tree.kind, hshows.details, hflat, Node.kind, hdetails]
  · obtain ⟨m', hshows⟩ := Draft.exists_shows h t t.self_mem_nodes
    have hid := Draft.id_of_subtree h
    have hm' := hshows.found
    rw [hid] at hm'
    refine ⟨hid, ?_⟩
    rw [hcontains, hshows.children]
    exact Draft.root_children_eq ht hr hr' ho hm'

theorem ofClasses_agree (classes : List ClassStatus) (dependencies : DependencyMap) :
    (∃ e, Tree.ofClasses classes = .error e ∧ Graph.ofClasses classes dependencies = .error e) ∨
      ∃ t g, Tree.ofClasses classes = .ok t ∧ Graph.ofClasses classes dependencies = .ok g ∧
        SameHierarchy t g := by
  rcases ofClasses_cases classes dependencies with ⟨e, ht, hg⟩ | ⟨t, -, hsub, ht, hg⟩
  · exact .inl ⟨e, ht, hg⟩
  · have hgraph := grown_graphDraft classes dependencies
    have htree := grown_treeDraft classes
    exact .inr ⟨t, _, ht, hg, sameHierarchy htree.wellFormed hgraph.wellFormed
      (htree.rooted.trans rfl) (hgraph.rooted.trans rfl)
      (htree.outline.trans hgraph.outline.symm) hsub⟩

end DecompTracker.Hierarchy
