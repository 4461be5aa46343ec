import DecompTracker.Proofs.Report.Parts
import DecompTracker.Proofs.Results
import Mathlib.Data.List.Permutation

/-! Dependency edges of reports. A report has an edge from a recognised class to each recognised
class that it refers to, itself excepted, and no other dependency edge. Nothing else a class refers
to leads to an edge, even when it is written like a recognised class. -/
namespace DecompTracker

open Hierarchy

/-- The recognised classes that a class refers to, itself excepted, by increasing segments. -/
def Snapshot.references (s : Snapshot) (filter : NamespaceFilter) (name : QualifiedName) :
    List QualifiedName :=
  ((s.classes.get? name).elim [] SortedSet.toList).filter fun target =>
    target ≠ name ∧ target ∈ s.classes.keys ∧ filter.accepts target

/-- The edges of a graph of some classes, each of which refers to the given targets; `idOf` tells
the number of a class's node. -/
structure Hierarchy.Graph.ShowsReferences (g : Graph) (classes : List ClassStatus)
    (targets : QualifiedName → List QualifiedName) (idOf : QualifiedName → NodeId) : Prop where
  nodes : ∀ c ∈ classes, ∃ n, g.classNodes c.name = [n] ∧ n.id = idOf c.name
  parts : g.edges = g.edgesOfKind .contains ++ g.edgesOfKind .dependsOn
  dependencies : g.edgesOfKind .dependsOn = classes.flatMap fun c =>
    (targets c.name).map fun target => ⟨idOf c.name, idOf target, .dependsOn⟩
  /-- Edges run between the nodes of two different classes. -/
  ends : ∀ e ∈ g.edgesOfKind .dependsOn, e.source ≠ e.target ∧
    ∃ c ∈ classes, ∃ c' ∈ classes, c'.name ∈ targets c.name ∧
      e.source = idOf c.name ∧ e.target = idOf c'.name
  nodup : (g.edgesOfKind .dependsOn).Nodup

variable {s : Snapshot} {filter : NamespaceFilter} {format : ReportFormat}

theorem Snapshot.mem_references {name target : QualifiedName} :
    target ∈ s.references filter name ↔
      (∃ targets, s.classes.get? name = some targets ∧ target ∈ targets.toList) ∧
        target ≠ name ∧ target ∈ (s.statuses filter).map ClassStatus.name := by
  rw [mem_names_iff, references, List.mem_filter, decide_eq_true_eq]
  cases s.classes.get? name <;> simp

theorem Snapshot.pairwise_references (s : Snapshot) (filter : NamespaceFilter)
    (name : QualifiedName) :
    (s.references filter name).Pairwise fun a b => compare a b = .lt := by
  refine List.Pairwise.filter _ ?_
  cases s.classes.get? name with
  | none => exact .nil
  | some targets => exact SortedSet.pairwise_toList targets

theorem Snapshot.nodup_references (name : QualifiedName) :
    (s.references filter name).Nodup := by
  refine (s.pairwise_references filter name).imp fun h heq => ?_
  simp [heq] at h

/-- The filters of classes, of their targets and of classes without nodes come to one. -/
theorem Snapshot.knownTargets_kept {c : ClassStatus} (hc : c ∈ s.statuses filter) :
    knownTargets (s.statuses filter) (s.kept filter) c.name = s.references filter c.name := by
  obtain ⟨-, ha⟩ := mem_names_iff.mp (List.mem_map_of_mem hc)
  rw [knownTargets, references, kept, get?_filterClasses, if_pos ha]
  cases s.classes.get? c.name with
  | none => rfl
  | some targets =>
    simp only [Option.map_some, Option.elim_some, SortedSet.toList_filter, List.filter_filter,
      mem_names_iff]
    refine List.filter_congr fun target _ => ?_
    by_cases hne : target = c.name <;> cases hta : filter.accepts target <;> simp [hne]

section edges

variable {classes : List ClassStatus} {targets : QualifiedName → List QualifiedName}

theorem idxOf_allLeads_inj {c : ClassStatus} (hc : c ∈ classes) {name : QualifiedName} :
    (allLeads classes).idxOf c.name = (allLeads classes).idxOf name ↔ c.name = name :=
  List.idxOf_inj (mem_allLeads.mpr ⟨c, hc, .refl _⟩)

theorem nodup_referenceEdges (hn : (classes.map ClassStatus.name).Nodup)
    (htargets : ∀ c ∈ classes, (targets c.name).Nodup ∧
      ∀ target ∈ targets c.name, target ∈ classes.map ClassStatus.name) :
    (referenceEdges (allLeads classes).idxOf classes targets).Nodup := by
  refine List.nodup_flatMap.mpr ⟨fun c hc => ?_, ?_⟩
  · obtain ⟨hnodup, hmem⟩ := htargets c hc
    refine hnodup.map_on fun a ha b hb hab => ?_
    obtain ⟨x, hx, rfl⟩ := List.mem_map.mp (hmem a ha)
    exact (idxOf_allLeads_inj hx).mp (congrArg Edge.target hab)
  · refine (List.pairwise_map.mp hn).imp_of_mem fun {c c'} hc _ hne e he he' => ?_
    obtain ⟨_, -, rfl⟩ := List.mem_map.mp he
    obtain ⟨_, -, heq⟩ := List.mem_map.mp he'
    exact hne ((idxOf_allLeads_inj hc).mp (congrArg Edge.source heq).symm)

end edges

theorem Report.MadeFrom.showsReferences {r : Report} (hr : r.MadeFrom s filter) {g : Graph}
    (hg : r.graph? = some g) :
    g.ShowsReferences r.statuses (s.references filter) (allLeads r.statuses).idxOf := by
  have hmade := hr.graph g hg
  obtain ⟨hparts, hdepends⟩ := Graph.edges_of_ofClasses hmade
  have hknown : ∀ c ∈ r.statuses,
      knownTargets r.statuses (s.kept filter) c.name = s.references filter c.name := by
    rw [hr.statuses]
    exact fun c hc => Snapshot.knownTargets_kept hc
  rw [referenceEdges_congr hknown] at hdepends
  refine ⟨fun c hc => (Graph.reflects_of_ofClasses hmade).classNodes_eq hc, hparts, hdepends,
    fun e he => ?_, ?_⟩
  · rw [hdepends] at he
    obtain ⟨c, hc, target, ht, rfl⟩ := mem_referenceEdges.mp he
    obtain ⟨-, hne, hmem⟩ := Snapshot.mem_references.mp ht
    rw [← hr.statuses] at hmem
    obtain ⟨c', hc', rfl⟩ := List.mem_map.mp hmem
    exact ⟨fun heq => hne ((idxOf_allLeads_inj hc).mp heq).symm, c, hc, c', hc', ht, rfl, rfl⟩
  · rw [hdepends]
    refine nodup_referenceEdges hr.nodup_names fun c _ =>
      ⟨Snapshot.nodup_references _, fun target ht => ?_⟩
    rw [hr.statuses]
    exact (Snapshot.mem_references.mp ht).2.2

/-- Whenever a report has a graph, its dependency edges are the references between the recognised
classes, in the order of their statuses. -/
theorem Report.build_showsReferences {r : Report} {g : Graph}
    (h : Report.build s filter format = .ok r) (hg : r.graph? = some g) :
    (r.statuses.map ClassStatus.name).Perm (s.classes.keys.filter filter.accepts) ∧
      (∀ name, (s.references filter name).Pairwise fun a b => compare a b = .lt) ∧
      ∃ idOf, g.ShowsReferences r.statuses (s.references filter) idOf := by
  have hr := madeFrom_of_build h
  exact ⟨hr.names_perm, s.pairwise_references filter, _, hr.showsReferences hg⟩

/-- A class that refers to a class within it, to itself, to a scope, to a class that is not
recognised and to a name that is only written like a class. -/
def referringClasses : DependencyMap :=
  .ofList [(.parse "ksys::Actor", .ofList [.parse "ksys::Heap", .parse "ksys::Actor", .parse "ksys",
      .parse "sead::Heap", .parse "ksys::Actor::State"]),
    (.parse "ksys::Actor::State",
      .ofList [.ofSegments ["ksys", "Actor::State"], .parse "ksys::Lost"]),
    (.parse "ksys::Heap", .ofList [.parse "ksys::Actor"]),
    (.parse "sead::Heap", .ofList [.parse "ksys::Actor"])]

theorem Report.build_showsReferences_referringClasses :
    ∃ r g, Report.build ⟨referringClasses, [], .empty⟩ (.ofList ["ksys"]) .graph = .ok r ∧
      r.graph? = some g ∧
      g.edgesOfKind .dependsOn =
        [⟨1, 2, .dependsOn⟩, ⟨1, 3, .dependsOn⟩, ⟨3, 1, .dependsOn⟩] ∧
      (r.statuses.map ClassStatus.name).Perm
        (referringClasses.keys.filter (NamespaceFilter.ofList ["ksys"]).accepts) ∧
      (∀ name, (Snapshot.references ⟨referringClasses, [], .empty⟩ (.ofList ["ksys"]) name).Pairwise
        fun a b => compare a b = .lt) ∧
      ∃ idOf, g.ShowsReferences r.statuses
        (Snapshot.references ⟨referringClasses, [], .empty⟩ (.ofList ["ksys"])) idOf := by
  obtain ⟨r, hr, he⟩ : ∃ r,
      Report.build ⟨referringClasses, [], .empty⟩ (.ofList ["ksys"]) .graph = .ok r ∧
        r.graph?.map (·.edgesOfKind .dependsOn) =
          some [⟨1, 2, .dependsOn⟩, ⟨1, 3, .dependsOn⟩, ⟨3, 1, .dependsOn⟩] := by
    rw [Report.build_eq, Snapshot.summary, Snapshot.statuses_of_ordered (by decide +kernel)]
    exact exists_ok_of_any (by decide +kernel)
  obtain ⟨g, hg, he⟩ := Option.map_eq_some_iff.mp he
  exact ⟨r, g, hr, hg, he, Report.build_showsReferences hr hg⟩

end DecompTracker
