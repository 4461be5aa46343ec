import DecompTracker.Proofs.Hierarchy.Addition
import DecompTracker.Proofs.Hierarchy.Contents

/-! When a hierarchy is built. Both forms are drafts of the same outline, so they report the same
conflicts, and they are built exactly when no two of the classes conflict. -/
namespace DecompTracker.Hierarchy

namespace Draft

theorem wellFormed_unrooted : unrooted.WellFormed where
  root := by simp [unrooted]
  named := by simp [unrooted]
  index := by simp [unrooted, lookup?, paths, outline, entries, Outline.paths]
  children := by simp [unrooted]
  edges := rfl
  proper := Outline.proper_empty

theorem wellFormed_withRoot : withRoot.WellFormed where
  root := by simp [withRoot]
  named id n hn := by
    obtain ⟨hlt, rfl⟩ := Array.getElem?_eq_some_iff.mp hn
    obtain rfl : id = 0 := by simpa [withRoot] using hlt
    rfl
  index := by simp [withRoot, lookup?, paths, outline, entries, Outline.paths, base]
  children id n hn := by
    obtain ⟨hlt, rfl⟩ := Array.getElem?_eq_some_iff.mp hn
    obtain rfl : id = 0 := by simpa [withRoot] using hlt
    rfl
  edges := rfl
  proper := Outline.proper_empty

theorem grown_unrooted (classes : List ClassStatus) :
    Grown unrooted (unrooted.addClasses classes) (.ofClasses classes) :=
  grown_addClasses wellFormed_unrooted classes

theorem grown_withRoot (classes : List ClassStatus) :
    Grown withRoot (withRoot.addClasses classes) (.ofClasses classes) :=
  grown_addClasses wellFormed_withRoot classes

/-! Dependencies -/

/-- Dependencies add edges only, between nodes of classes. -/
theorem addDependencies_eq (d : Draft) (name : QualifiedName) (targets : List QualifiedName) :
    ∃ es : List Edge, (∀ e ∈ es, e.kind = .dependsOn ∧ d.classNode? name = some e.source ∧
        ∃ target ∈ targets, d.classNode? target = some e.target) ∧
      d.addDependencies name targets = { d with edges := d.edges ++ es.toArray } := by
  unfold addDependencies
  split
  · rename_i source hsource
    refine ⟨_, fun e he => ?_, rfl⟩
    obtain ⟨id, hid, rfl⟩ := List.mem_map.mp he
    exact ⟨rfl, hsource, List.mem_filterMap.mp hid⟩
  · exact ⟨[], by simp, by simp⟩

theorem grown_addDependencies {d : Draft} (hd : d.WellFormed) (name : QualifiedName)
    (targets : List QualifiedName) : Grown d (d.addDependencies name targets) d.outline := by
  obtain ⟨es, hes, heq⟩ := d.addDependencies_eq name targets
  have hnone : es.filter (·.kind = .contains) = [] := by
    simpa [List.filter_eq_nil_iff] using fun e he => by simp [(hes e he).1]
  rw [heq]
  refine ⟨⟨⟨hd.root, hd.named, hd.index, hd.children, ?_⟩, hd.proper⟩, rfl, rfl⟩
  simp only [Array.toList_append, List.filter_append, hnone, List.append_nil]
  exact hd.edges

/-- All dependencies of the classes, added in the order of the list. -/
def addAllDependencies (d : Draft) (classes : List ClassStatus) (dependencies : DependencyMap) :
    Draft :=
  classes.foldl (fun d c =>
    match dependencies.get? c.name with
    | some targets => d.addDependencies c.name targets.toList
    | none => d) d

theorem grown_addAllDependencies {d : Draft} (hd : d.WellFormed) (classes : List ClassStatus)
    (dependencies : DependencyMap) :
    Grown d (d.addAllDependencies classes dependencies) d.outline := by
  induction classes generalizing d with
  | nil => exact ⟨hd, rfl, rfl⟩
  | cons c classes ih =>
    have hg : Grown d (match dependencies.get? c.name with
        | some targets => d.addDependencies c.name targets.toList
        | none => d) d.outline := by
      split
      · exact grown_addDependencies hd c.name _
      · exact ⟨hd, rfl, rfl⟩
    have hrest := ih hg.wellFormed
    rw [hg.outline] at hrest
    exact hg.trans hrest

/-! Results -/

theorem checked_eq {α : Type} (d : Draft) (a : α) :
    d.checked a =
      if d.outline.conflicts = [] then .ok a else .error ⟨d.outline.conflicts⟩ := by
  simp [checked, outline]

end Draft

/-- The draft a tree is made from. -/
def treeDraft (classes : List ClassStatus) : Draft := Draft.withRoot.addClasses classes

/-- The draft a graph is made from. -/
def graphDraft (classes : List ClassStatus) (dependencies : DependencyMap) : Draft :=
  (Draft.unrooted.addClasses classes).addAllDependencies classes dependencies

theorem grown_treeDraft (classes : List ClassStatus) :
    Draft.Grown .withRoot (treeDraft classes) (.ofClasses classes) :=
  Draft.grown_withRoot classes

theorem grown_graphDraft (classes : List ClassStatus) (dependencies : DependencyMap) :
    Draft.Grown .unrooted (graphDraft classes dependencies) (.ofClasses classes) := by
  have hg := Draft.grown_unrooted classes
  have hdeps := Draft.grown_addAllDependencies hg.wellFormed classes dependencies
  rw [hg.outline] at hdeps
  exact hg.trans hdeps

/-- The nodes of the flat form, when there is no root. -/
def Draft.flatNodes (d : Draft) : List FlatNode :=
  d.nodes.toList.zipIdx.map fun (n, id) => ⟨id, n.name, n.kind⟩

/-- Both forms are given exactly when the outline of the classes is free of conflicts, and else
both fail with its conflicts. -/
theorem Tree.ofClasses_eq (classes : List ClassStatus) :
    Tree.ofClasses classes =
      if (Outline.ofClasses classes).conflicts = [] then
        .ok (((treeDraft classes).subtree? (treeDraft classes).nodes.size 0).getD Draft.bareRoot)
      else .error ⟨(Outline.ofClasses classes).conflicts⟩ := by
  have hg := grown_treeDraft classes
  have hroot : (treeDraft classes).root? = some 0 := by
    simp [Draft.root?, hg.rooted, Draft.withRoot]
  have hc := (treeDraft classes).checked_eq
    (((treeDraft classes).subtree? (treeDraft classes).nodes.size 0).getD Draft.bareRoot)
  rw [hg.outline] at hc
  rw [← hc, Tree.ofClasses, Draft.toTree, ← treeDraft, hroot, Option.bind_some]

theorem Graph.ofClasses_eq (classes : List ClassStatus) (dependencies : DependencyMap) :
    Graph.ofClasses classes dependencies =
      if (Outline.ofClasses classes).conflicts = [] then
        .ok ⟨(graphDraft classes dependencies).flatNodes,
          (graphDraft classes dependencies).edges.toList⟩
      else .error ⟨(Outline.ofClasses classes).conflicts⟩ := by
  have hg := grown_graphDraft classes dependencies
  have hroot : (graphDraft classes dependencies).root? = none := by
    simp [Draft.root?, hg.rooted, Draft.unrooted]
  have hfilter : (graphDraft classes dependencies).flatNodes.filter (fun n =>
      (graphDraft classes dependencies).root? ≠ some n.id) =
        (graphDraft classes dependencies).flatNodes := by
    simp [hroot]
  have hc := (graphDraft classes dependencies).checked_eq
    (⟨(graphDraft classes dependencies).flatNodes,
      (graphDraft classes dependencies).edges.toList⟩ : Graph)
  rw [hg.outline] at hc
  rw [← hc, ← hfilter]
  rfl

theorem exists_tree_iff (classes : List ClassStatus) :
    (∃ t, Tree.ofClasses classes = .ok t) ↔ classes.Pairwise fun x y => ¬ x.Conflicts y := by
  rw [Tree.ofClasses_eq, ← (Outline.conflicts_ofClasses classes).1]
  by_cases h : (Outline.ofClasses classes).conflicts = [] <;> simp [h]

theorem exists_graph_iff (classes : List ClassStatus) (dependencies : DependencyMap) :
    (∃ g, Graph.ofClasses classes dependencies = .ok g) ↔
      classes.Pairwise fun x y => ¬ x.Conflicts y := by
  rw [Graph.ofClasses_eq, ← (Outline.conflicts_ofClasses classes).1]
  by_cases h : (Outline.ofClasses classes).conflicts = [] <;> simp [h]

/-- A hierarchy is built exactly when no two entries of the list conflict. -/
theorem ofClasses_succeeds_iff (classes : List ClassStatus) (dependencies : DependencyMap) :
    ((∃ t, Tree.ofClasses classes = .ok t) ↔ classes.Pairwise fun x y => ¬ x.Conflicts y) ∧
      ((∃ g, Graph.ofClasses classes dependencies = .ok g) ↔
        classes.Pairwise fun x y => ¬ x.Conflicts y) :=
  ⟨exists_tree_iff classes, exists_graph_iff classes dependencies⟩

end DecompTracker.Hierarchy
