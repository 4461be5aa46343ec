import DecompTracker.Proofs.Classification.Partition
import DecompTracker.Proofs.Hierarchy.References
import DecompTracker.Proofs.Report.Success

/-! What a report is made from. Its statuses are those of the recognised classes, its hierarchies
are built from these statuses, and it is made exactly when they can stand in one hierarchy.
Snapshots with the same statuses and the same references between their classes give the same
report. -/
namespace DecompTracker

open Hierarchy

/-- The recognised classes of a snapshot. -/
def Snapshot.kept (s : Snapshot) (filter : NamespaceFilter) : DependencyMap :=
  filterClasses s.classes filter

/-- Their statuses, in the order of their written names. -/
def Snapshot.statuses (s : Snapshot) (filter : NamespaceFilter) : List ClassStatus :=
  classifyAll (s.kept filter) (s.functions.map FunctionEntry.resolve) s.overrides

/-- Their totals. -/
def Snapshot.summary (s : Snapshot) (filter : NamespaceFilter) : Summary :=
  { Summary.ofStatuses (s.statuses filter) with
    functions := s.functions.length
    overrides := s.overrides.size }

variable {s s' : Snapshot} {filter filter' : NamespaceFilter} {format : ReportFormat}

/-! Recognised classes -/

theorem get?_filterClasses (classes : DependencyMap) (filter : NamespaceFilter)
    (name : QualifiedName) :
    (filterClasses classes filter).get? name =
      if filter.accepts name then
        (classes.get? name).map fun targets =>
          targets.filter fun target => filter.accepts target && target ≠ name
      else none := by
  rw [filterClasses, SortedMap.get?_mapEntries, SortedMap.get?_filterKeys]
  cases filter.accepts name <;> rfl

theorem Snapshot.mem_keys_kept {name : QualifiedName} :
    name ∈ (s.kept filter).keys ↔ name ∈ s.classes.keys ∧ filter.accepts name := by
  rw [kept, keys_filterClasses, List.mem_filter]

theorem Snapshot.map_name_statuses (s : Snapshot) (filter : NamespaceFilter) :
    (s.statuses filter).map ClassStatus.name = classOrder (s.kept filter) :=
  map_name_classifyAll _ _ _

theorem Snapshot.mem_names_iff {name : QualifiedName} :
    name ∈ (s.statuses filter).map ClassStatus.name ↔
      name ∈ s.classes.keys ∧ filter.accepts name := by
  rw [map_name_statuses, (classOrder_perm _).mem_iff, mem_keys_kept]

theorem Snapshot.nodup_names (s : Snapshot) (filter : NamespaceFilter) :
    ((s.statuses filter).map ClassStatus.name).Nodup := by
  rw [map_name_statuses]
  exact nodup_classOrder _

theorem classifyAll_eq (classes : DependencyMap) (functions : List FunctionInfo)
    (overrides : OverrideTable) :
    classifyAll classes functions overrides =
      (classOrder classes).map fun name => classify name functions overrides := by
  have hindex (name : QualifiedName) :
      (OwnerIndex.ofList functions).classify name overrides = classify name functions overrides := by
    rw [OwnerIndex.classify, OwnerIndex.functionsFor_ofList, classify]
  simp only [classifyAll, hindex]

/-- Nothing is sorted when names in the order of their segments are also in their written order. -/
theorem Snapshot.statuses_of_ordered
    (h : (s.kept filter).keys.Pairwise fun a b => a.joined ≤ b.joined) :
    s.statuses filter = (s.kept filter).keys.map fun name =>
      classify name (s.functions.map FunctionEntry.resolve) s.overrides := by
  have horder : classOrder (s.kept filter) = (s.kept filter).keys :=
    List.mergeSort_of_pairwise (h.imp decide_eq_true)
  rw [statuses, classifyAll_eq, horder]

/-- Statuses are made from the names of the classes and from what is found for each of them. -/
theorem classifyAll_congr {classes classes' : DependencyMap}
    {functions functions' : List FunctionInfo} (overrides : OverrideTable)
    (hkeys : classes.keys = classes'.keys)
    (hfunctions : ∀ name, classify name functions overrides = classify name functions' overrides) :
    classifyAll classes functions overrides = classifyAll classes' functions' overrides := by
  simp only [classifyAll_eq, classOrder, hkeys, hfunctions]

/-! Making the report -/

theorem of_onlyIf_eq_some {ε α : Type} {wanted : Bool} {make : Except ε α} {a : α}
    (h : onlyIf wanted make = .ok (some a)) : make = .ok a := by
  cases wanted with
  | false => simp [onlyIf] at h
  | true =>
    cases make with
    | error e => simp [onlyIf, Except.map] at h
    | ok b => simpa [onlyIf, Except.map] using h

/-- What is wanted has been made. -/
theorem exists_of_onlyIf_true {ε α : Type} {make : Except ε α} {a? : Option α}
    (h : onlyIf true make = .ok a?) : ∃ a, make = .ok a := by
  cases make with
  | error e => simp [onlyIf, Except.map] at h
  | ok b => exact ⟨b, rfl⟩

theorem ReportFormat.wants_some (format : ReportFormat) :
    format.wantsTree = true ∨ format.wantsGraph = true := by
  cases format <;> simp [wantsTree, wantsGraph]

theorem Report.build_eq (s : Snapshot) (filter : NamespaceFilter) (format : ReportFormat) :
    Report.build s filter format =
      (onlyIf format.wantsTree (Tree.ofClasses (s.statuses filter))).bind fun tree? =>
        (onlyIf format.wantsGraph
            (Graph.ofClasses (s.statuses filter) (s.kept filter))).bind fun graph? =>
          .ok ⟨s.statuses filter, tree?, graph?, s.summary filter⟩ := by
  rw [Snapshot.summary, ← List.length_map FunctionEntry.resolve]
  rfl

/-- A report and what it was made from. -/
structure Report.MadeFrom (r : Report) (s : Snapshot) (filter : NamespaceFilter) : Prop where
  statuses : r.statuses = s.statuses filter
  compatible : r.statuses.Pairwise fun x y => ¬ x.Conflicts y
  tree : ∀ t, r.tree? = some t → Tree.ofClasses r.statuses = .ok t
  graph : ∀ g, r.graph? = some g → Graph.ofClasses r.statuses (s.kept filter) = .ok g
  summary : r.summary = s.summary filter

theorem Report.madeFrom_of_build {r : Report} (h : Report.build s filter format = .ok r) :
    r.MadeFrom s filter := by
  rw [build_eq] at h
  cases ht : onlyIf format.wantsTree (Tree.ofClasses (s.statuses filter)) with
  | error e => simp [ht, Except.bind] at h
  | ok t? =>
    cases hg : onlyIf format.wantsGraph
        (Graph.ofClasses (s.statuses filter) (s.kept filter)) with
    | error e => simp [ht, hg, Except.bind] at h
    | ok g? =>
      simp only [ht, hg, Except.bind, Except.ok.injEq] at h
      subst h
      refine ⟨rfl, ?_, fun t hts => ?_, fun g hgs => ?_, rfl⟩
      · rcases format.wants_some with hw | hw
        · exact (exists_tree_iff _).mp (exists_of_onlyIf_true (hw ▸ ht))
        · exact (exists_graph_iff _ _).mp (exists_of_onlyIf_true (hw ▸ hg))
      · obtain rfl : t? = some t := hts
        exact of_onlyIf_eq_some ht
      · obtain rfl : g? = some g := hgs
        exact of_onlyIf_eq_some hg

theorem Report.MadeFrom.nodup_names {r : Report} (hr : r.MadeFrom s filter) :
    (r.statuses.map ClassStatus.name).Nodup :=
  hr.statuses ▸ s.nodup_names filter

/-- Each recognised class has one status. -/
theorem Report.MadeFrom.names_perm {r : Report} (hr : r.MadeFrom s filter) :
    (r.statuses.map ClassStatus.name).Perm (s.classes.keys.filter filter.accepts) := by
  rw [hr.statuses, Snapshot.map_name_statuses, ← keys_filterClasses]
  exact classOrder_perm _

/-- Reports agree when their statuses, the references between their classes and their totals do. -/
theorem Report.build_congr (hstatuses : s.statuses filter = s'.statuses filter')
    (htargets : ∀ c ∈ s.statuses filter,
      knownTargets (s.statuses filter) (s.kept filter) c.name =
        knownTargets (s.statuses filter) (s'.kept filter') c.name)
    (hfunctions : s.functions.length = s'.functions.length)
    (hoverrides : s.overrides.size = s'.overrides.size) :
    Report.build s filter format = Report.build s' filter' format := by
  have hgraph := Graph.ofClasses_congr htargets
  have hsummary : s.summary filter = s'.summary filter' := by
    rw [Snapshot.summary, Snapshot.summary, hstatuses, hfunctions, hoverrides]
  rw [build_eq, build_eq, ← hstatuses, hgraph, hsummary]

end DecompTracker
