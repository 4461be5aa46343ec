import DecompTracker.Proofs.Hierarchy.Reference
import DecompTracker.Proofs.Hierarchy.Repeats

/-! References between classes. Each class has one node in a graph. Of the names that a class refers
to, each one that is a class gets an edge between the nodes of the two, in the order of the names.
All other names leave no trace, so graphs are the same for dependencies that differ in such names
only. -/
namespace DecompTracker.Hierarchy

/-- The names that a class refers to, as far as they are classes too. -/
def knownTargets (classes : List ClassStatus) (dependencies : DependencyMap)
    (name : QualifiedName) : List QualifiedName :=
  ((dependencies.get? name).elim [] SortedSet.toList).filter (· ∈ classes.map ClassStatus.name)

/-- From each class an edge to each of its targets. -/
def referenceEdges (idOf : QualifiedName → NodeId) (classes : List ClassStatus)
    (targets : QualifiedName → List QualifiedName) : List Edge :=
  classes.flatMap fun c => (targets c.name).map fun target => ⟨idOf c.name, idOf target, .dependsOn⟩

variable {d : Draft} {classes : List ClassStatus}

theorem mem_referenceEdges {idOf : QualifiedName → NodeId}
    {targets : QualifiedName → List QualifiedName} {e : Edge} :
    e ∈ referenceEdges idOf classes targets ↔
      ∃ c ∈ classes, ∃ target ∈ targets c.name, e = ⟨idOf c.name, idOf target, .dependsOn⟩ := by
  simp only [referenceEdges, List.mem_flatMap, List.mem_map, eq_comm]

theorem referenceEdges_congr {idOf : QualifiedName → NodeId}
    {targets targets' : QualifiedName → List QualifiedName}
    (h : ∀ c ∈ classes, targets c.name = targets' c.name) :
    referenceEdges idOf classes targets = referenceEdges idOf classes targets' :=
  List.flatMap_congr fun c hc => by rw [h c hc]

namespace Draft

theorem WellFormed.present?_of_above (hd : d.WellFormed) {id : Nat} {name : QualifiedName}
    (ha : d.Above (some id) (some name)) :
    ∃ n, d.present? name.joined = some (id, n) ∧ n.path = name ∧ n.entry ∈ d.entries := by
  obtain ⟨n, hn, hp, hf⟩ := hd.find?_of_above ha
  obtain ⟨i, hid, hi⟩ := above_some_some.mp ha
  have hl : d.lookup? name.joined = some id := (hd.index _ _).mpr ⟨i, name, hid, hi, rfl⟩
  exact ⟨n, by simp [present?, hl, hn], hp, (hd.proper.find?_eq_some_iff.mp hf).1⟩

/-- Once a draft holds some classes, its class nodes are theirs. -/
theorem WellFormed.classNode?_eq_some_iff (hd : d.WellFormed) (hh : d.outline.Holds classes)
    {name : QualifiedName} {id : Nat} :
    d.classNode? name = some id ↔
      name ∈ classes.map ClassStatus.name ∧ d.Above (some id) (some name) := by
  constructor
  · intro h
    simp only [classNode?, Option.bind_eq_bind, Option.bind_eq_some_iff, Prod.exists] at h
    obtain ⟨j, n, hpresent, h⟩ := h
    split at h
    · rename_i hn
      obtain ⟨hdetails, rfl⟩ := hn
      obtain rfl := Option.some.inj h
      obtain ⟨hf, ha⟩ := hd.of_present?_eq_some hpresent
      obtain ⟨x, hx⟩ := Option.isSome_iff_exists.mp hdetails
      have he := (hd.proper.find?_eq_some_iff.mp hf).1
      obtain ⟨c, hc, hname, -⟩ := (hh.details n.entry he x).mp hx
      exact ⟨List.mem_map.mpr ⟨c, hc, hname⟩, ha⟩
    · simp at h
  · intro h
    obtain ⟨hname, ha⟩ := h
    obtain ⟨c, hc, rfl⟩ := List.mem_map.mp hname
    obtain ⟨n, hpresent, hp, he⟩ := hd.present?_of_above ha
    have hdetails := (hh.details n.entry he c.toClassDetails).mpr ⟨c, hc, hp.symm, rfl⟩
    have hsome : n.details.isSome := Option.isSome_iff_exists.mpr ⟨_, hdetails⟩
    simp [classNode?, hpresent, hsome, hp]

/-- Without a root a class has the number of its name among all leads. -/
theorem WellFormed.classNode?_eq (hd : d.WellFormed) (hbase : d.base = 0)
    (hh : d.outline.Holds classes) (name : QualifiedName) :
    d.classNode? name =
      if name ∈ classes.map ClassStatus.name then some ((allLeads classes).idxOf name)
      else none := by
  refine Option.ext fun id => ?_
  rw [hd.classNode?_eq_some_iff hh]
  by_cases h : name ∈ classes.map ClassStatus.name
  · obtain ⟨c, hc, rfl⟩ := List.mem_map.mp h
    have hidx := idxOf_eq_iff_getElem? hd.proper.nodup_paths (hh.mem_paths hc) (i := id)
    rw [hh.paths] at hidx
    simp [h, above_some_some, hbase, paths, hh.paths, hidx]
  · simp [h]

theorem WellFormed.dependencyEdges_eq (hd : d.WellFormed) (hbase : d.base = 0)
    (hh : d.outline.Holds classes) (dependencies : DependencyMap) {c : ClassStatus}
    (hc : c ∈ classes) :
    d.dependencyEdges dependencies c.name =
      (knownTargets classes dependencies c.name).map fun target =>
        ⟨(allLeads classes).idxOf c.name, (allLeads classes).idxOf target, .dependsOn⟩ := by
  have hsource := hd.classNode?_eq hbase hh c.name
  rw [if_pos (List.mem_map_of_mem hc)] at hsource
  have hfilter (targets : List QualifiedName) : targets.filterMap d.classNode? =
      (targets.filter (· ∈ classes.map ClassStatus.name)).map ((allLeads classes).idxOf ·) := by
    induction targets with
    | nil => rfl
    | cons target targets ih =>
      have ht := hd.classNode?_eq hbase hh target
      by_cases h : target ∈ classes.map ClassStatus.name
      · rw [if_pos h] at ht
        rw [List.filterMap_cons_some ht, List.filter_cons_of_pos (by simpa using h), List.map_cons,
          ih]
      · rw [if_neg h] at ht
        rw [List.filterMap_cons_none ht, List.filter_cons_of_neg (by simpa using h), ih]
  rw [dependencyEdges, knownTargets, hsource]
  cases dependencies.get? c.name with
  | none => rfl
  | some targets =>
    simp only [Option.elim_some, hfilter, List.map_map]
    rfl

end Draft

theorem flatNodes_graphDraft (classes : List ClassStatus) (dependencies : DependencyMap) :
    (graphDraft classes dependencies).flatNodes =
      (Draft.unrooted.addClasses classes).flatNodes := by
  rw [graphDraft, Draft.addAllDependencies_eq]
  rfl

/-- The edges of a graph: first those between scopes, then for each class those to its targets. -/
theorem edges_graphDraft_of_holds (hh : (Outline.ofClasses classes).Holds classes)
    (dependencies : DependencyMap) :
    (graphDraft classes dependencies).edges.toList =
      containments 0 (allLeads classes) ++
        referenceEdges (allLeads classes).idxOf classes (knownTargets classes dependencies) := by
  have hg := Draft.grown_unrooted classes
  have hbase : (Draft.unrooted.addClasses classes).base = 0 := Draft.base_of_unrooted hg.rooted
  rw [edges_graphDraft, hh.paths]
  congr 1
  refine List.flatMap_congr fun c hc => ?_
  exact hg.wellFormed.dependencyEdges_eq hbase (hg.outline ▸ hh) dependencies hc

/-- Names that are no classes do not matter for the graph. -/
theorem Graph.ofClasses_congr {dependencies dependencies' : DependencyMap}
    (h : ∀ c ∈ classes, knownTargets classes dependencies c.name =
      knownTargets classes dependencies' c.name) :
    Graph.ofClasses classes dependencies = Graph.ofClasses classes dependencies' := by
  rw [Graph.ofClasses_eq, Graph.ofClasses_eq, flatNodes_graphDraft, flatNodes_graphDraft]
  by_cases hc : (Outline.ofClasses classes).conflicts = []
  · have hh := (Outline.conflicts_ofClasses classes).2 hc
    have hedges : (graphDraft classes dependencies).edges.toList =
        (graphDraft classes dependencies').edges.toList := by
      rw [edges_graphDraft_of_holds hh, edges_graphDraft_of_holds hh, referenceEdges_congr h]
    rw [hedges]
  · rw [if_neg hc, if_neg hc]

/-! Edges of a finished graph -/

section finished

variable {dependencies : DependencyMap} {g : Graph}

/-- A graph that was built shows the draft it was built from, which holds the classes. -/
theorem Graph.eq_of_ofClasses (h : Graph.ofClasses classes dependencies = .ok g) :
    (Outline.ofClasses classes).Holds classes ∧
      g = ⟨(graphDraft classes dependencies).flatNodes,
        (graphDraft classes dependencies).edges.toList⟩ := by
  rcases ofClasses_cases classes dependencies with ⟨e, -, hg⟩ | ⟨t, hh, -, -, hg⟩
  · simp [h] at hg
  · exact ⟨hh, Except.ok.inj (h.symm.trans hg)⟩

theorem Graph.reflects_of_ofClasses (h : Graph.ofClasses classes dependencies = .ok g) :
    g.Reflects classes := by
  obtain ⟨hh, rfl⟩ := eq_of_ofClasses h
  have hg := grown_graphDraft classes dependencies
  exact reflects_of_wellFormed hg.wellFormed (hg.rooted.trans rfl) (hg.outline ▸ hh)

theorem kind_of_mem_containments {start : Nat} {paths : List QualifiedName} {e : Edge}
    (he : e ∈ containments start paths) : e.kind = .contains := by
  obtain ⟨_, _, -, -, hkind⟩ := mem_containments.mp he
  rw [hkind]

theorem edgesOfKind_append (nodes : List FlatNode) {es fs : List Edge}
    (hes : ∀ e ∈ es, e.kind = .contains) (hfs : ∀ e ∈ fs, e.kind = .dependsOn) :
    (⟨nodes, es ++ fs⟩ : Graph).edgesOfKind .contains = es ∧
      (⟨nodes, es ++ fs⟩ : Graph).edgesOfKind .dependsOn = fs := by
  have hes' : es.filter (fun e => e.kind = .dependsOn) = [] :=
    List.filter_eq_nil_iff.mpr fun e he => by simp [hes e he]
  have hfs' : fs.filter (fun e => e.kind = .contains) = [] :=
    List.filter_eq_nil_iff.mpr fun e he => by simp [hfs e he]
  constructor
  · rw [Graph.edgesOfKind, List.filter_append, hfs', List.append_nil]
    exact List.filter_eq_self.mpr fun e he => by simp [hes e he]
  · rw [Graph.edgesOfKind, List.filter_append, hes', List.nil_append]
    exact List.filter_eq_self.mpr fun e he => by simp [hfs e he]

/-- The edges between scopes come first, then those from each class to its targets. -/
theorem Graph.edges_of_ofClasses (h : Graph.ofClasses classes dependencies = .ok g) :
    g.edges = g.edgesOfKind .contains ++ g.edgesOfKind .dependsOn ∧
      g.edgesOfKind .dependsOn =
        referenceEdges (allLeads classes).idxOf classes (knownTargets classes dependencies) := by
  obtain ⟨hh, rfl⟩ := eq_of_ofClasses h
  have hreferences : ∀ e ∈ referenceEdges (allLeads classes).idxOf classes
      (knownTargets classes dependencies), e.kind = .dependsOn := by
    intro e he
    obtain ⟨c, -, target, -, rfl⟩ := mem_referenceEdges.mp he
    rfl
  rw [edges_graphDraft_of_holds hh]
  obtain ⟨hcontains, hdepends⟩ := edgesOfKind_append (graphDraft classes dependencies).flatNodes
    (fun e he => kind_of_mem_containments he) hreferences
  exact ⟨by rw [hcontains, hdepends], hdepends⟩

end finished

/-! The node of a class -/

/-- The nodes that are classes and have the written form of a name. -/
def Graph.classNodes (g : Graph) (name : QualifiedName) : List FlatNode :=
  g.nodes.filter fun n => n.kind.isClass && n.name = name.joined

theorem NodeKind.isClass_iff {kind : NodeKind} :
    kind.isClass ↔ ∃ status, kind = .classified status := by
  cases kind <;> simp [isClass]

/-- Of different names exactly one entry has the name of a given entry. -/
theorem filter_eq_singleton {α β : Type} [DecidableEq α] {f : α → β} {l : List α}
    (hn : (l.map f).Nodup) {a : α} (ha : a ∈ l) {p : α → Bool}
    (hp : ∀ b ∈ l, p b = true ↔ f b = f a) : l.filter p = [a] := by
  have hself : l.filter p = l.filter (· = a) := by
    refine List.filter_congr fun b hb => ?_
    rw [Bool.eq_iff_iff, hp b hb, decide_eq_true_eq]
    exact ⟨fun hf => List.inj_on_of_nodup_map hn hb ha hf, fun h => h ▸ rfl⟩
  rw [hself, List.filter_eq, List.count_eq_one_of_mem (.of_map f hn) ha, List.replicate_one]

/-- Each class has one node, numbered by its name's place among all leads. -/
theorem Graph.Reflects.classNodes_eq {g : Graph} (h : g.Reflects classes) {c : ClassStatus}
    (hc : c ∈ classes) :
    ∃ n, g.classNodes c.name = [n] ∧ n.id = (allLeads classes).idxOf c.name := by
  have hmem : c.name ∈ allLeads classes := mem_allLeads.mpr ⟨c, hc, .refl _⟩
  have hlen : g.nodes.length = (allLeads classes).length := by
    simpa using congrArg List.length h.paths
  have hlt : (allLeads classes).idxOf c.name < g.nodes.length :=
    hlen ▸ List.idxOf_lt_length_iff.mpr hmem
  have hname : g.nodes[(allLeads classes).idxOf c.name].name = c.name.joined := by
    have := congrArg (·[(allLeads classes).idxOf c.name]?) h.paths
    simpa [hlt, List.getElem?_idxOf hmem] using this
  have hid : g.nodes[(allLeads classes).idxOf c.name].id = (allLeads classes).idxOf c.name := by
    have := congrArg (·[(allLeads classes).idxOf c.name]?) h.ids
    simpa [hlt] using this
  have hnodup : (g.nodes.map FlatNode.name).Nodup := h.names ▸ nodup_eraseDups _
  refine ⟨_, filter_eq_singleton hnodup (List.getElem_mem hlt) fun n hn => ?_, hid⟩
  rw [hname, Bool.and_eq_true, decide_eq_true_eq, and_iff_right_iff_imp]
  intro hj
  exact NodeKind.isClass_iff.mpr ⟨_, (h.classified n hn _).mpr ⟨c, hc, hj.symm, rfl⟩⟩

end DecompTracker.Hierarchy
