import DecompTracker.Proofs.Hierarchy.Consistency
import DecompTracker.Proofs.QualifiedName.Canonical
import DecompTracker.Proofs.SortedMap
import DecompTracker.Report.Basic
import DecompTracker.Tables.Classes

/-! When a report is made. The classes of a report have the distinct names of a class map, so its
hierarchies can fail only when two names have different leads that are written the same, and names
that were read from texts never do. -/
namespace DecompTracker

open Hierarchy

/-- Every class of the map was named by a text. -/
def ReadFromTexts (classes : DependencyMap) : Prop :=
  ∀ name ∈ classes.keys, ∃ written, name = .parse written

theorem ClassTable.readFromTexts_dependencies (table : ClassTable) :
    ReadFromTexts table.dependencies := by
  intro name hname
  cases table with
  | withTargets entries =>
    obtain ⟨_, he, rfl⟩ := SortedMap.mem_keys_ofList hname
    obtain ⟨e, -, rfl⟩ := List.mem_map.mp he
    exact ⟨e.1, rfl⟩
  | plain names =>
    obtain ⟨_, he, rfl⟩ := SortedMap.mem_keys_ofList hname
    obtain ⟨written, -, rfl⟩ := List.mem_map.mp he
    exact ⟨written, rfl⟩

theorem keys_filterClasses (classes : DependencyMap) (filter : NamespaceFilter) :
    (filterClasses classes filter).keys = classes.keys.filter filter.accepts := by
  simp [filterClasses]

theorem ReadFromTexts.filterClasses {classes : DependencyMap} (h : ReadFromTexts classes)
    (filter : NamespaceFilter) : ReadFromTexts (filterClasses classes filter) := by
  intro name hname
  rw [keys_filterClasses] at hname
  exact h name (List.mem_filter.mp hname).1

theorem classOrder_perm (classes : DependencyMap) : (classOrder classes).Perm classes.keys :=
  List.mergeSort_perm _ _

theorem nodup_classOrder (classes : DependencyMap) : (classOrder classes).Nodup :=
  (classOrder_perm classes).nodup_iff.mpr classes.nodup_keys

theorem map_name_classifyAll (classes : DependencyMap) (functions : List FunctionInfo)
    (overrides : OverrideTable) :
    (classifyAll classes functions overrides).map ClassStatus.name = classOrder classes := by
  simp [classifyAll, OwnerIndex.classify, ClassStatus.ofOwned, Function.comp_def]

/-- Different canonical names give classes that do not conflict. -/
theorem not_conflicts_of_canonical {x y : ClassStatus} (hx : x.name.Canonical)
    (hy : y.name.Canonical) (hne : x.name ≠ y.name) : ¬ x.Conflicts y := by
  rintro (⟨p, q, hp, hq, hj, hpq⟩ | ⟨hn, -⟩)
  · exact hpq ((hx.of_isLeadOf hp).eq_of_joined_eq (hy.of_isLeadOf hq) hj)
  · exact hne hn

theorem pairwise_classifyAll {classes : DependencyMap} (h : ReadFromTexts classes)
    (functions : List FunctionInfo) (overrides : OverrideTable) :
    (classifyAll classes functions overrides).Pairwise fun x y => ¬ x.Conflicts y := by
  have hnames := map_name_classifyAll classes functions overrides
  have hcanonical : ∀ x ∈ classifyAll classes functions overrides, x.name.Canonical := by
    intro x hx
    have hmem : x.name ∈ classOrder classes := hnames ▸ List.mem_map_of_mem hx
    obtain ⟨written, hw⟩ := h x.name ((classOrder_perm classes).mem_iff.mp hmem)
    exact hw ▸ QualifiedName.canonical_parse written
  have hne := List.pairwise_map.mp (hnames ▸ nodup_classOrder classes)
  exact hne.imp_of_mem fun hx hy hxy =>
    not_conflicts_of_canonical (hcanonical _ hx) (hcanonical _ hy) hxy

theorem onlyIf_ok {ε α : Type} (wanted : Bool) {make : Except ε α} (h : ∃ a, make = .ok a) :
    ∃ a?, onlyIf wanted make = .ok a? := by
  obtain ⟨a, rfl⟩ := h
  cases wanted
  · exact ⟨none, rfl⟩
  · exact ⟨some a, rfl⟩

/-- A class table is always read into such a map, and every report on such a map is made. -/
theorem Report.build_succeeds :
    (∀ table : ClassTable, ReadFromTexts table.dependencies) ∧
      ∀ (snapshot : Snapshot) (filter : NamespaceFilter) (format : ReportFormat),
        ReadFromTexts snapshot.classes → ∃ r, Report.build snapshot filter format = .ok r := by
  refine ⟨ClassTable.readFromTexts_dependencies, fun snapshot filter format h => ?_⟩
  have hpair := pairwise_classifyAll (h.filterClasses filter)
    (snapshot.functions.map FunctionEntry.resolve) snapshot.overrides
  obtain ⟨t?, ht⟩ := onlyIf_ok format.wantsTree ((exists_tree_iff _).mpr hpair)
  obtain ⟨g?, hg⟩ := onlyIf_ok format.wantsGraph
    ((exists_graph_iff _ (filterClasses snapshot.classes filter)).mpr hpair)
  unfold Report.build
  simp only [ht, hg]
  exact ⟨_, rfl⟩

/-- Names with stray and repeated colons. -/
def colonTable : ClassTable := .plain ["a:::b", "a:", "a", "", "::"]

theorem Report.build_succeeds_colonTable :
    ReadFromTexts colonTable.dependencies ∧
      ∃ r, Report.build ⟨colonTable.dependencies, [], .empty⟩ (.ofList []) .both = .ok r :=
  ⟨Report.build_succeeds.1 colonTable,
    Report.build_succeeds.2 ⟨colonTable.dependencies, [], .empty⟩ (.ofList []) .both
      (Report.build_succeeds.1 colonTable)⟩

end DecompTracker
