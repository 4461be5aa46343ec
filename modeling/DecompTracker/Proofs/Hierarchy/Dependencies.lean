import DecompTracker.Proofs.Hierarchy.Consistency
import DecompTracker.Proofs.Hierarchy.Frame
import DecompTracker.Proofs.SortedMap

/-! Dependency edges. Adding classes makes containment edges only, and the edges of all dependencies
follow them, class by class. They depend on which nodes are classes and not on other edges, so
drafts with one outline get the same ones. -/
namespace DecompTracker.Hierarchy.Draft

variable {d d' : Draft}

/-! Containment edges -/

theorem edges_addClasses_unrooted (classes : List ClassStatus) :
    (unrooted.addClasses classes).edges.toList =
      containments 0 (Outline.ofClasses classes).paths := by
  have hg := grown_unrooted classes
  have hbase : (unrooted.addClasses classes).base = 0 := base_of_unrooted hg.rooted
  have hk : ∀ e ∈ (unrooted.addClasses classes).edges.toList, e.kind = .contains := by
    obtain ⟨new, he, hnew⟩ := (keeps_addClasses unrooted classes).edges
    have hall : (unrooted.addClasses classes).edges.toList = new := by
      simpa [unrooted] using he
    exact hall ▸ hnew
  have hedges := hg.wellFormed.edges
  rw [List.filter_eq_self.mpr (by simpa using hk), hbase, paths, hg.outline] at hedges
  exact hedges

/-! Drafts with the same entries -/

/-- Well-formed drafts that hold the same scopes and classes. Their edges may differ. -/
structure Alike (d d' : Draft) : Prop where
  left : d.WellFormed
  right : d'.WellFormed
  rooted : d.rooted = d'.rooted
  entries : d.outline.entries = d'.outline.entries

theorem Alike.base_eq (h : d.Alike d') : d.base = d'.base := by
  rw [base, base, h.rooted]

theorem Alike.paths_eq (h : d.Alike d') : d.paths = d'.paths :=
  congrArg (List.map Entry.path) h.entries

theorem Alike.entry_eq (h : d.Alike d') {i : Nat} {n n' : Node} (hn : d.nodes[i]? = some n)
    (hn' : d'.nodes[i]? = some n') : n.entry = n'.entry := by
  by_cases hle : d.base ≤ i
  · have hi := congrArg (fun es => es[i - d.base]?) h.entries
    simp only [outline, getElem?_entries, ← h.base_eq, Nat.add_sub_of_le hle, hn, hn',
      Option.map_some] at hi
    exact Option.some.inj hi
  · -- Only the root stands before the outline.
    have hrooted : d.rooted := by
      by_contra hr
      simp [base, hr] at hle
    have hzero : i = 0 := by
      rw [base_of_rooted hrooted] at hle
      omega
    subst hzero
    obtain ⟨m, hm, he⟩ := h.left.root hrooted
    obtain ⟨m', hm', he'⟩ := h.right.root (h.rooted ▸ hrooted)
    rw [hn] at hm
    rw [hn'] at hm'
    rw [Option.some.inj hm, Option.some.inj hm', he, he']

theorem eq_of_entry_eq {n n' : Node} (hname : n.name = n'.name) (he : n.entry = n'.entry)
    (hc : n.children = n'.children) : n = n' := by
  cases n with
  | mk name path origin details children =>
    cases n' with
    | mk name' path' origin' details' children' =>
      simp only [Node.entry, Entry.mk.injEq] at he
      obtain ⟨rfl, rfl, rfl⟩ := he
      obtain rfl : name = name' := hname
      exact congrArg (Node.mk name path origin details) hc

theorem Alike.nodes_eq (h : d.Alike d') : d.nodes = d'.nodes := by
  have hsize : d.nodes.size = d'.nodes.size := by
    rw [h.left.size_eq, h.right.size_eq, h.paths_eq, h.base_eq]
  refine Array.ext hsize fun i hi hi' => ?_
  have hn : d.nodes[i]? = some d.nodes[i] := Array.getElem?_eq_getElem hi
  have hn' : d'.nodes[i]? = some d'.nodes[i] := Array.getElem?_eq_getElem hi'
  have hentry := h.entry_eq hn hn'
  have hpath : d.nodes[i].path = d'.nodes[i].path := congrArg Entry.path hentry
  have hstands : d.standsFor i d.nodes[i] = d'.standsFor i d'.nodes[i] := by
    rw [standsFor, standsFor, root?, root?, h.rooted, hpath]
  have hname : d.nodes[i].name = d'.nodes[i].name := by
    rw [h.left.named i _ hn, h.right.named i _ hn', hpath]
  refine eq_of_entry_eq hname hentry ?_
  rw [h.left.children i _ hn, h.right.children i _ hn', h.base_eq, h.paths_eq, hstands]

theorem Alike.lookup?_eq (h : d.Alike d') : d.lookup? = d'.lookup? := by
  funext written
  refine Option.ext fun id => ?_
  rw [h.left.index, h.right.index, h.paths_eq, h.base_eq]

theorem Alike.classNode?_eq (h : d.Alike d') : d.classNode? = d'.classNode? := by
  funext name
  simp only [classNode?, present?, h.nodes_eq, h.lookup?_eq]

/-! The edges of all dependencies -/

def dependencyEdges (d : Draft) (dependencies : DependencyMap) (name : QualifiedName) :
    List Edge :=
  match dependencies.get? name, d.classNode? name with
  | some targets, some source =>
    (targets.toList.filterMap d.classNode?).map fun target => ⟨source, target, .dependsOn⟩
  | _, _ => []

theorem addAllDependencies_eq (d : Draft) (classes : List ClassStatus)
    (dependencies : DependencyMap) :
    d.addAllDependencies classes dependencies =
      { d with edges := d.edges ++
          (classes.flatMap fun c => d.dependencyEdges dependencies c.name).toArray } := by
  -- More edges do not change which nodes are classes.
  have hedges (d : Draft) (es : Array Edge) (name : QualifiedName) :
      ({ d with edges := es } : Draft).dependencyEdges dependencies name =
        d.dependencyEdges dependencies name := rfl
  have hstep (d : Draft) (c : ClassStatus) :
      d.addAllDependencies [c] dependencies =
        { d with edges := d.edges ++ (d.dependencyEdges dependencies c.name).toArray } := by
    simp only [addAllDependencies, List.foldl_cons, List.foldl_nil]
    unfold addDependencies dependencyEdges
    cases dependencies.get? c.name with
    | none => simp
    | some targets => cases d.classNode? c.name <;> simp
  induction classes generalizing d with
  | nil => simp [addAllDependencies]
  | cons c classes ih =>
    have hcons : d.addAllDependencies (c :: classes) dependencies =
        (d.addAllDependencies [c] dependencies).addAllDependencies classes dependencies := rfl
    rw [hcons, hstep, ih]
    simp [hedges]

theorem mem_dependencyEdges {dependencies : DependencyMap} {name : QualifiedName} {e : Edge}
    (he : e ∈ d.dependencyEdges dependencies name) :
    d.classNode? name = some e.source ∧ e.kind = .dependsOn := by
  unfold dependencyEdges at he
  split at he
  · rename_i targets source _ hs
    obtain ⟨target, -, rfl⟩ := List.mem_map.mp he
    exact ⟨hs, rfl⟩
  · simp at he

theorem exists_node_of_classNode? {name : QualifiedName} {id : Nat}
    (h : d.classNode? name = some id) :
    ∃ n, d.nodes[id]? = some n ∧ n.path = name ∧ n.details.isSome := by
  simp only [classNode?, present?, Option.bind_eq_bind, Option.bind_eq_some_iff, Option.pure_def,
    Option.some.injEq] at h
  obtain ⟨_, ⟨j, -, n, hn, rfl⟩, h⟩ := h
  split at h
  · rename_i hp
    obtain rfl := Option.some.inj h
    exact ⟨n, hn, hp.2, hp.1⟩
  · simp at h

theorem name_eq_of_classNode? {name name' : QualifiedName} {id : Nat}
    (h : d.classNode? name = some id) (h' : d.classNode? name' = some id) : name = name' := by
  obtain ⟨n, hn, rfl, -⟩ := exists_node_of_classNode? h
  obtain ⟨n', hn', rfl, -⟩ := exists_node_of_classNode? h'
  rw [Option.some.inj (hn.symm.trans hn')]

theorem nodup_dependencyEdges (d : Draft) (dependencies : DependencyMap) (name : QualifiedName) :
    (d.dependencyEdges dependencies name).Nodup := by
  unfold dependencyEdges
  split
  · rename_i targets source _ _
    have htargets : (targets.toList.filterMap d.classNode?).Nodup :=
      List.Nodup.filterMap (fun a b id ha hb => name_eq_of_classNode? ha hb) (SortedMap.nodup_keys targets)
    exact htargets.map fun a b hab => congrArg Edge.target hab
  · exact List.nodup_nil

theorem disjoint_dependencyEdges {dependencies : DependencyMap} {name name' : QualifiedName}
    (hne : name ≠ name') :
    List.Disjoint (d.dependencyEdges dependencies name)
      (d.dependencyEdges dependencies name') := by
  intro e he he'
  exact hne (name_eq_of_classNode? (mem_dependencyEdges he).1 (mem_dependencyEdges he').1)

end DecompTracker.Hierarchy.Draft
