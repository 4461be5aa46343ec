import DecompTracker.Proofs.Hierarchy.ClassNodes
import DecompTracker.Proofs.Report.Dependencies
import DecompTracker.Proofs.Report.Totals
import DecompTracker.Proofs.Text.ByteOrder

/-! Agreement of the parts of a report. Its statuses, its two hierarchies and its totals are made
separately, yet all of them speak of the recognised classes, each of which counts once. -/
namespace DecompTracker

open Hierarchy

/-- All parts of a report speak of the classes with the given names. -/
structure Report.SpeaksOf (r : Report) (names : List QualifiedName) : Prop where
  classes : (r.statuses.map ClassStatus.name).Perm names
  /-- Written names increase in the order of their bytes. -/
  ordered : r.statuses.Pairwise fun x y =>
    Text.bytes x.name.joined.toList < Text.bytes y.name.joined.toList
  tree : ∀ t, r.tree? = some t →
    t.classes.Perm (r.statuses.map fun c => (c.name.joined, c.toClassDetails)) ∧
      t.classCount = r.statuses.length
  graph : ∀ g, r.graph? = some g →
    g.classes.Perm (r.statuses.map fun c => (c.name.joined, c.status))
  /-- The graph leaves nothing out but the root. -/
  sizes : ∀ t g, r.tree? = some t → r.graph? = some g → t.count = g.nodes.length + 1
  summary : r.summary.Tallies r.statuses
  total : r.summary.counts.total = r.statuses.length
  scopes : ∀ scope, scope ∈ r.summary.perNamespace.keys ↔ ∃ name ∈ names, name.topLevel = scope
  scopeTotals : ∀ scope n, r.summary.perNamespace.get? scope = some n →
    n.total = names.countP fun name => name.topLevel = scope

variable {s : Snapshot} {filter : NamespaceFilter} {format : ReportFormat}

/-! The order of statuses -/

theorem pairwise_classOrder (classes : DependencyMap) :
    (classOrder classes).Pairwise fun a b => a.joined ≤ b.joined := by
  have h : (classOrder classes).Pairwise fun a b => decide (a.joined ≤ b.joined) := by
    refine List.pairwise_mergeSort (fun a b c hab hbc => ?_) (fun a b => ?_) _
    · rw [decide_eq_true_eq] at hab hbc ⊢
      exact String.le_trans hab hbc
    · simpa using String.le_total a.joined b.joined
  exact h.imp of_decide_eq_true

/-- Classes that can stand in one hierarchy are told apart by how they are written. -/
theorem joined_ne_of_not_conflicts {x y : ClassStatus} (h : ¬ x.Conflicts y)
    (hne : x.name ≠ y.name) : x.name.joined ≠ y.name.joined :=
  fun hj => h (.inl ⟨x.name, y.name, .refl _, .refl _, hj, hne⟩)

theorem Report.MadeFrom.pairwise_joined {r : Report} (hr : r.MadeFrom s filter) :
    r.statuses.Pairwise fun x y => x.name.joined < y.name.joined := by
  have hsorted : (r.statuses.map ClassStatus.name).Pairwise fun a b => a.joined ≤ b.joined := by
    rw [hr.statuses, Snapshot.map_name_statuses]
    exact pairwise_classOrder _
  have hle := List.pairwise_map.mp hsorted
  have hne := List.pairwise_map.mp hr.nodup_names
  refine (hle.and (hne.and hr.compatible)).imp fun ⟨hxy, hname, hc⟩ => ?_
  refine String.not_le.mp fun hyx => ?_
  exact joined_ne_of_not_conflicts hc hname (String.le_antisymm hxy hyx)

/-! The parts together -/

theorem Report.MadeFrom.tallies {r : Report} (hr : r.MadeFrom s filter) :
    r.summary.Tallies r.statuses := by
  have h := Summary.tallies_ofStatuses (s.statuses filter)
  rw [hr.summary, hr.statuses]
  exact ⟨h.classes, h.counts, h.methods, h.totalSize, h.scopes, h.scopeCounts, h.sums⟩

/-- Whatever report is made, its parts agree on the recognised classes. -/
theorem Report.build_speaksOf {r : Report} (h : Report.build s filter format = .ok r) :
    r.SpeaksOf (s.classes.keys.filter filter.accepts) := by
  have hr := madeFrom_of_build h
  have hperm := hr.names_perm
  have htallies := hr.tallies
  refine ⟨hperm, hr.pairwise_joined.imp Text.bytes_lt_bytes, fun t ht => ?_, fun g hg => ?_,
    fun t g ht hg => count_eq_of_ofClasses (hr.tree t ht) (hr.graph g hg), htallies,
    htallies.total_counts, fun scope => ?_, fun scope n hscope => ?_⟩
  · have hclasses := Tree.classes_perm (hr.tree t ht) hr.nodup_names
    refine ⟨hclasses, ?_⟩
    rw [← t.length_classes, hclasses.length_eq, List.length_map]
  · exact Graph.classes_perm (hr.graph g hg) hr.nodup_names
  · simp only [htallies.scopes, ← hperm.mem_iff, List.mem_map, exists_exists_and_eq_and]
  · rw [htallies.total_scope hscope, ← hperm.countP_eq, List.countP_map]
    rfl

/-- Classes of two recognised namespaces, one within another, with functions, an override and a
class that is not recognised. -/
def trackedClasses : Snapshot where
  classes := .ofList [(.parse "sead::Heap", .ofList []),
    (.parse "ksys::Actor::State", .ofList [.parse "sead::Heap"]),
    (.parse "ksys::Actor", .ofList [.parse "ksys::Actor::State"]), (.parse "nn::Heap", .ofList [])]
  functions := [⟨0x10, .decompiled, 8, "_ZN4ksys5Actor5enterEv"⟩,
    ⟨0x18, .other, 24, "_ZN4ksys5Actor4initEv"⟩, ⟨0x30, .unknown, 4, "free"⟩]
  overrides := OverrideTable.empty.insert (.parse "sead::Heap") .final

theorem Report.build_speaksOf_trackedClasses :
    ∃ r, Report.build trackedClasses (.ofList ["ksys", "sead"]) .both = .ok r ∧
      r.summary.counts = ⟨1, 1, 1⟩ ∧ r.tree?.isSome ∧ r.graph?.isSome ∧
      r.SpeaksOf
        (trackedClasses.classes.keys.filter (NamespaceFilter.ofList ["ksys", "sead"]).accepts) := by
  obtain ⟨r, hr, hcounts, htree, hgraph⟩ : ∃ r,
      Report.build trackedClasses (.ofList ["ksys", "sead"]) .both = .ok r ∧
        r.summary.counts = ⟨1, 1, 1⟩ ∧ r.tree?.isSome ∧ r.graph?.isSome := by
    rw [Report.build_eq, Snapshot.summary, Snapshot.statuses_of_ordered (by decide +kernel)]
    exact exists_ok_of_any (by decide +kernel)
  exact ⟨r, hr, hcounts, htree, hgraph, Report.build_speaksOf hr⟩

end DecompTracker
