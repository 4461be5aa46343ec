import DecompTracker.Proofs.Hierarchy.Dependencies
import DecompTracker.Proofs.Hierarchy.Runs

/-! Simulation of the two forms. The same calls keep a draft with a root and one without in step,
whichever of them conflict: the root takes one number and shows nowhere else, not even to a class
that is named like it. -/
namespace DecompTracker.Hierarchy

/-- The same edge when its ends are numbered one later. -/
def Edge.later (e : Edge) : Edge := { e with source := e.source + 1, target := e.target + 1 }

def FlatNode.later (n : FlatNode) : FlatNode := { n with id := n.id + 1 }

def Graph.later (g : Graph) : Graph := ⟨g.nodes.map FlatNode.later, g.edges.map Edge.later⟩

theorem containments_succ (start : Nat) (paths : List QualifiedName) :
    containments (start + 1) paths = (containments start paths).map Edge.later := by
  rw [containments, containments, List.zipIdx_succ, List.filterMap_map, List.map_filterMap]
  refine List.filterMap_congr fun e _ => ?_
  simp only [Function.comp_apply, containment?, Option.map_map]
  refine Option.map_congr fun s _ => ?_
  have hsource : start + 1 + paths.idxOf s = start + paths.idxOf s + 1 := by omega
  exact congrArg (fun source => Edge.mk source (e.2 + 1) .contains) hsource

/-- What the flat form shows of an entry. -/
def Entry.flatNode (e : Entry) (id : NodeId) : FlatNode :=
  ⟨id, e.path.joined, .ofDetails e.details⟩

namespace Draft

variable {d dt dg : Draft}

/-- A draft with a root in step with one without. -/
structure InStep (dt dg : Draft) : Prop where
  left : dt.WellFormed
  right : dg.WellFormed
  rooted : dt.rooted
  unrooted : dg.rooted = false
  outline : dt.outline = dg.outline
  edges : dt.edges.toList = dg.edges.toList.map Edge.later

theorem inStep_start : InStep withRoot unrooted :=
  ⟨wellFormed_withRoot, wellFormed_unrooted, rfl, rfl, rfl, rfl⟩

theorem InStep.paths_eq (h : InStep dt dg) : dt.paths = dg.paths := congrArg Outline.paths h.outline

theorem InStep.conflicts_eq (h : InStep dt dg) : dt.conflicts = dg.conflicts :=
  Array.toList_inj.mp (congrArg Outline.conflicts h.outline)

/-! Nodes and index -/

theorem InStep.nodeCount_eq (h : InStep dt dg) : dt.nodeCount = dg.nodeCount + 1 := by
  have ht := h.left.size_eq
  have hg := h.right.size_eq
  rw [base_of_rooted h.rooted, h.paths_eq] at ht
  rw [base_of_unrooted h.unrooted] at hg
  simp only [nodeCount]
  omega

theorem InStep.lookup?_eq (h : InStep dt dg) (written : String) :
    dt.lookup? written = (dg.lookup? written).map (· + 1) := by
  refine Option.ext fun id => ?_
  simp only [h.left.index, Option.map_eq_some_iff, h.right.index, h.paths_eq,
    base_of_rooted h.rooted, base_of_unrooted h.unrooted]
  constructor
  · intro hid
    obtain ⟨i, p, rfl, hp, hj⟩ := hid
    exact ⟨i, ⟨i, p, (Nat.zero_add i).symm, hp, hj⟩, Nat.add_comm i 1⟩
  · intro hid
    obtain ⟨_, ⟨i, p, rfl, hp, hj⟩, rfl⟩ := hid
    exact ⟨i, p, by rw [Nat.zero_add, Nat.add_comm], hp, hj⟩

/-- Nodes one apart hold the same apart from their links. -/
theorem InStep.entry_eq (h : InStep dt dg) (id : Nat) :
    (dt.nodes[id + 1]?).map Node.entry = (dg.nodes[id]?).map Node.entry := by
  have hi : dt.entries[id]? = dg.entries[id]? := by rw [show dt.entries = dg.entries from
    congrArg Outline.entries h.outline]
  rwa [getElem?_entries, getElem?_entries, base_of_rooted h.rooted, base_of_unrooted h.unrooted,
    Nat.zero_add, Nat.add_comm 1 id] at hi

theorem InStep.classNode?_eq (h : InStep dt dg) (name : QualifiedName) :
    dt.classNode? name = (dg.classNode? name).map (· + 1) := by
  simp only [classNode?, present?, h.lookup?_eq]
  cases dg.lookup? name.joined with
  | none => rfl
  | some id =>
    have he := h.entry_eq id
    cases hm : dt.nodes[id + 1]? with
    | none =>
      rw [hm, Option.map_none, eq_comm, Option.map_eq_none_iff] at he
      simp [hm, he]
    | some m =>
      rw [hm, Option.map_some, eq_comm, Option.map_eq_some_iff] at he
      obtain ⟨n, hn, he⟩ := he
      have hpath : n.path = m.path := congrArg Entry.path he
      have hdetails : n.details = m.details := congrArg Entry.details he
      by_cases hc : m.details.isSome ∧ m.path = name <;> simp [hm, hn, hpath, hdetails, hc]

/-! One more call -/

/-- What a later state adds to the edges is what its containment edges have more. -/
theorem containments_of_keeps {d' : Draft} (hd : d.WellFormed) (hd' : d'.WellFormed)
    {new : List Edge} (he : d'.edges.toList = d.edges.toList ++ new)
    (hnew : ∀ e ∈ new, e.kind = .contains) :
    containments d'.base d'.paths = containments d.base d.paths ++ new := by
  have hself : new.filter (·.kind = .contains) = new :=
    List.filter_eq_self.mpr fun e hm => by simp [hnew e hm]
  rw [← hd'.edges, ← hd.edges, he, List.filter_append, hself]

theorem InStep.edges_addClass (h : InStep dt dg) (c : ClassStatus) :
    (dt.addClass c).edges.toList = (dg.addClass c).edges.toList.map Edge.later := by
  have ht := grown_addClass h.left c
  have hg := grown_addClass h.right c
  obtain ⟨newt, het, hkt⟩ := (dt.keeps_addClass c).edges
  obtain ⟨newg, heg, hkg⟩ := (dg.keeps_addClass c).edges
  have hct := containments_of_keeps h.left ht.wellFormed het hkt
  have hcg := containments_of_keeps h.right hg.wellFormed heg hkg
  have hpaths : (dt.addClass c).paths = (dg.addClass c).paths := by
    rw [paths, paths, ht.outline, hg.outline, h.outline]
  have hnew : newt = newg.map Edge.later := by
    rw [base_of_rooted (ht.rooted.trans h.rooted), base_of_rooted h.rooted, hpaths, h.paths_eq,
      containments_succ 0, containments_succ 0] at hct
    rw [base_of_unrooted (hg.rooted.trans h.unrooted), base_of_unrooted h.unrooted] at hcg
    rw [hcg, List.map_append] at hct
    exact (List.append_cancel_left hct).symm
  rw [het, heg, List.map_append, h.edges, hnew]

theorem InStep.edges_addDependencies (h : InStep dt dg) (name : QualifiedName)
    (targets : List QualifiedName) :
    (dt.addDependencies name targets).edges.toList =
      (dg.addDependencies name targets).edges.toList.map Edge.later := by
  have htargets : targets.filterMap dt.classNode? =
      (targets.filterMap dg.classNode?).map (· + 1) := by
    rw [List.map_filterMap]
    exact List.filterMap_congr fun target _ => h.classNode?_eq target
  rw [addDependencies, addDependencies, h.classNode?_eq]
  cases dg.classNode? name with
  | none => exact h.edges
  | some source => simp [htargets, h.edges, Edge.later]

theorem InStep.apply (h : InStep dt dg) (call : Call) : InStep (dt.apply call) (dg.apply call) := by
  have ht := grown_apply h.left call
  have hg := grown_apply h.right call
  refine ⟨ht.wellFormed, hg.wellFormed, ht.rooted.trans h.rooted, hg.rooted.trans h.unrooted, ?_, ?_⟩
  · rw [ht.outline, hg.outline, h.outline]
  · cases call with
    | addClass c => exact h.edges_addClass c
    | addDependencies name targets => exact h.edges_addDependencies name targets

theorem inStep_run (calls : List Call) : InStep (withRoot.run calls) (unrooted.run calls) := by
  induction calls using List.reverseRecOn with
  | nil => exact inStep_start
  | append_singleton calls call ih =>
    rw [run_concat, run_concat]
    exact ih.apply call

/-! The flat form of both -/

/-- The flat form shows the entries of a draft, numbered after the root. -/
theorem WellFormed.toGraph_eq (hd : d.WellFormed) :
    d.toGraph =
      d.checked ⟨(d.entries.zipIdx d.base).map fun e => e.1.flatNode e.2, d.edges.toList⟩ := by
  have hsplit : d.nodes.toList.zipIdx = (d.nodes.toList.take d.base).zipIdx ++
      (d.nodes.toList.drop d.base).zipIdx d.base := by
    have hlen : (d.nodes.toList.take d.base).length = d.base :=
      List.length_take_of_le hd.base_le_size
    conv_lhs => rw [← List.take_append_drop d.base d.nodes.toList, List.zipIdx_append, hlen]
    rw [Nat.zero_add]
  have hroot : ∀ e ∈ (d.nodes.toList.take d.base).zipIdx, d.root? = some e.2 := by
    intro e he
    have hlt := List.snd_lt_of_mem_zipIdx he
    rw [Nat.add_zero, List.length_take] at hlt
    exact root?_eq_some_iff.mpr (by omega)
  have hinner : ∀ e ∈ (d.nodes.toList.drop d.base).zipIdx d.base, d.root? ≠ some e.2 := by
    intro e he
    have hle := List.le_snd_of_mem_zipIdx he
    exact fun h => Nat.not_lt.mpr hle (root?_eq_some_iff.mp h)
  have hnodes : (d.nodes.toList.zipIdx.map fun e => FlatNode.mk e.2 e.1.name e.1.kind).filter
      (fun n => d.root? ≠ some n.id) =
        (d.entries.zipIdx d.base).map fun e => e.1.flatNode e.2 := by
    rw [List.filter_map, hsplit, List.filter_append,
      List.filter_eq_nil_iff.mpr fun e he => by simp [hroot e he],
      List.filter_eq_self.mpr fun e he => by simpa using hinner e he, List.nil_append, entries,
      ← List.map_drop, List.zipIdx_map, List.map_map]
    refine List.map_congr_left fun e he => ?_
    have hname : e.1.name = e.1.path.joined := by
      obtain ⟨id, hid⟩ := List.mem_iff_getElem?.mp
        (List.mem_of_mem_drop (List.fst_mem_of_mem_zipIdx he))
      exact hd.named id e.1 (by simpa using hid)
    rw [hname]
    rfl
  exact congrArg (fun nodes => d.checked (⟨nodes, d.edges.toList⟩ : Graph)) hnodes

theorem InStep.toGraph_eq (h : InStep dt dg) : dt.toGraph = dg.toGraph.map Graph.later := by
  have hentries : dt.entries = dg.entries := congrArg Outline.entries h.outline
  have hnodes : (dt.entries.zipIdx 1).map (fun e => e.1.flatNode e.2) =
      ((dg.entries.zipIdx 0).map fun e => e.1.flatNode e.2).map FlatNode.later := by
    rw [hentries, List.zipIdx_succ, List.map_map, List.map_map]
    rfl
  rw [h.left.toGraph_eq, h.right.toGraph_eq, base_of_rooted h.rooted, base_of_unrooted h.unrooted,
    hnodes, h.edges, checked, checked, h.conflicts_eq]
  cases dg.conflicts.isEmpty <;> rfl

/-- What can be asked of a draft with a root and of one without, when the root is all they differ
by. -/
structure SameButRoot (dt dg : Draft) : Prop where
  nodeCount : dt.nodeCount = dg.nodeCount + 1
  lookup : ∀ written, dt.lookup? written = (dg.lookup? written).map (· + 1)
  conflicts : dt.conflicts = dg.conflicts
  graph : (∃ e, dt.toGraph = .error e ∧ dg.toGraph = .error e) ∨
    ∃ g, dt.toGraph = .ok g.later ∧ dg.toGraph = .ok g
  /-- The root, which has the number 0, is neither a node nor an end of an edge. -/
  rootless : ∀ g, dt.toGraph = .ok g →
    (∀ n ∈ g.nodes, n.id ≠ 0) ∧ ∀ e ∈ g.edges, e.source ≠ 0 ∧ e.target ≠ 0

theorem rootless_later (g : Graph) : (∀ n ∈ g.later.nodes, n.id ≠ 0) ∧
    ∀ e ∈ g.later.edges, e.source ≠ 0 ∧ e.target ≠ 0 := by
  simp [Graph.later, FlatNode.later, Edge.later]

theorem InStep.sameButRoot (h : InStep dt dg) : SameButRoot dt dg := by
  have hgraph := h.toGraph_eq
  cases hg : dg.toGraph with
  | error e =>
    rw [hg] at hgraph
    refine ⟨h.nodeCount_eq, h.lookup?_eq, h.conflicts_eq, .inl ⟨e, hgraph, hg⟩, fun g' hg' => ?_⟩
    simp [hgraph, Except.map] at hg'
  | ok g =>
    rw [hg] at hgraph
    refine ⟨h.nodeCount_eq, h.lookup?_eq, h.conflicts_eq, .inr ⟨g, hgraph, hg⟩, fun g' hg' => ?_⟩
    obtain rfl := Except.ok.inj (hg'.symm.trans hgraph)
    exact rootless_later g

/-- After every run of calls the two forms differ by the root alone. -/
theorem run_sameButRoot (calls : List Call) :
    SameButRoot (withRoot.run calls) (unrooted.run calls) :=
  (inStep_run calls).sameButRoot

example : (withRoot.run [.addClass (.undecompiled (.parse rootName))]).lookup? rootName =
    some 1 := by decide

end Draft

end DecompTracker.Hierarchy
