import DecompTracker.Proofs.Hierarchy.ByName

/-! The order of classes. What an outline holds of its classes, and whether it can hold them at all,
does not depend on their order, so hierarchies of the same classes in another order differ by the
numbers of their nodes alone. -/
namespace DecompTracker

open Hierarchy

theorem ClassStatus.Conflicts.symm {x y : ClassStatus} (h : x.Conflicts y) : y.Conflicts x := by
  rcases h with ⟨p, q, hp, hq, hj, hne⟩ | ⟨hn, hd⟩
  · exact .inl ⟨q, p, hq, hp, hj.symm, hne.symm⟩
  · exact .inr ⟨hn.symm, hd.symm⟩

namespace Hierarchy

variable {classes classes' : List ClassStatus}

theorem pairwise_not_conflicts_perm (h : classes.Perm classes') :
    (classes.Pairwise fun x y => ¬ x.Conflicts y) ↔
      classes'.Pairwise fun x y => ¬ x.Conflicts y :=
  h.pairwise_iff fun hxy hyx => hxy hyx.symm

theorem allLeads_perm (h : classes.Perm classes') : (allLeads classes).Perm (allLeads classes') := by
  refine (List.perm_ext_iff_of_nodup (nodup_eraseDups _) (nodup_eraseDups _)).mpr fun p => ?_
  change p ∈ allLeads classes ↔ p ∈ allLeads classes'
  simp only [mem_allLeads, h.mem_iff]

theorem knownTargets_perm (h : classes.Perm classes') (dependencies : DependencyMap)
    (name : QualifiedName) :
    knownTargets classes dependencies name = knownTargets classes' dependencies name := by
  refine List.filter_congr fun target _ => ?_
  rw [decide_eq_decide, (h.map ClassStatus.name).mem_iff]

/-! What an outline holds -/

namespace Outline

variable {o : Outline}

theorem Holds.mem_held_iff (hh : o.Holds classes) {x : QualifiedName × Option ClassDetails} :
    x ∈ o.entries.map Entry.held ↔ (∃ c ∈ classes, x.1.IsLeadOf c.name) ∧
      ∀ y, x.2 = some y ↔ ∃ c ∈ classes, c.name = x.1 ∧ c.toClassDetails = y := by
  rw [List.mem_map, ← mem_allLeads, ← hh.paths, Outline.mem_paths]
  constructor
  · rintro ⟨e, he, rfl⟩
    exact ⟨⟨e, he, rfl⟩, hh.details e he⟩
  · rintro ⟨⟨e, he, hp⟩, hd⟩
    refine ⟨e, he, Prod.ext hp (Option.ext fun y => ?_)⟩
    rw [hd, ← hp]
    exact hh.details e he y

theorem Proper.nodup_held (ho : o.Proper) : (o.entries.map Entry.held).Nodup := by
  refine List.Nodup.of_map Prod.fst ?_
  rw [List.map_map]
  exact ho.nodup_paths

theorem held_perm (h : classes.Perm classes') (hh : (ofClasses classes).Holds classes)
    (hh' : (ofClasses classes').Holds classes') :
    ((ofClasses classes).entries.map Entry.held).Perm
      ((ofClasses classes').entries.map Entry.held) := by
  refine (List.perm_ext_iff_of_nodup (proper_ofClasses classes).nodup_held
    (proper_ofClasses classes').nodup_held).mpr fun x => ?_
  simp only [hh.mem_held_iff, hh'.mem_held_iff, h.mem_iff]

end Outline

/-! Both forms -/

/-- Two graphs are the same but for the numbers of their nodes. -/
structure Graph.SameByName (g g' : Graph) : Prop where
  nodes : (g.nodes.map fun n => (n.name, n.kind)).Perm (g'.nodes.map fun n => (n.name, n.kind))
  contains : (g.pairs .contains).Perm (g'.pairs .contains)
  dependencies : (g.pairs .dependsOn).Perm (g'.pairs .dependsOn)
  /-- No end of an edge is without a name. -/
  ends : ∀ e ∈ g.edges, (g.nameOf? e.source).isSome ∧ (g.nameOf? e.target).isSome

theorem Tree.rows_perm_of_perm {t t' : Tree} (h : classes.Perm classes')
    (ht : Tree.ofClasses classes = .ok t) (ht' : Tree.ofClasses classes' = .ok t') :
    t.rows.Perm t'.rows := by
  obtain ⟨hh, hrows⟩ := rows_of_ofClasses ht
  obtain ⟨hh', hrows'⟩ := rows_of_ofClasses ht'
  have hheld := Outline.held_perm h hh hh'
  exact hrows.trans (((hheld.map rowOf).cons _).trans hrows'.symm)

theorem Graph.sameByName_of_perm {g g' : Graph} {dependencies : DependencyMap}
    (h : classes.Perm classes') (hg : Graph.ofClasses classes dependencies = .ok g)
    (hg' : Graph.ofClasses classes' dependencies = .ok g') : g.SameByName g' := by
  have hheld := Outline.held_perm h (Graph.eq_of_ofClasses hg).1 (Graph.eq_of_ofClasses hg').1
  refine ⟨?_, ?_, ?_, Graph.ends_named hg⟩
  · have hkinds := hheld.map fun x => (x.1.joined, NodeKind.ofDetails x.2)
    rw [List.map_map, List.map_map] at hkinds
    rw [Graph.kinds_of_ofClasses hg, Graph.kinds_of_ofClasses hg']
    exact hkinds
  · rw [Graph.pairs_contains hg, Graph.pairs_contains hg']
    exact (allLeads_perm h).filterMap _
  · rw [Graph.pairs_dependsOn hg, Graph.pairs_dependsOn hg']
    simp only [knownTargets_perm h]
    exact h.flatMap_right _

/-- Both orders fail, or both give hierarchies that differ by the numbers of their nodes alone. -/
theorem ofClasses_of_perm (h : classes.Perm classes') (dependencies : DependencyMap) :
    ((∃ e, Tree.ofClasses classes = .error e ∧ Graph.ofClasses classes dependencies = .error e) ∧
      ∃ e, Tree.ofClasses classes' = .error e ∧ Graph.ofClasses classes' dependencies = .error e) ∨
    ∃ t t' g g', Tree.ofClasses classes = .ok t ∧ Tree.ofClasses classes' = .ok t' ∧
      Graph.ofClasses classes dependencies = .ok g ∧
      Graph.ofClasses classes' dependencies = .ok g' ∧
      t.rows.Perm t'.rows ∧ g.SameByName g' := by
  rcases ofClasses_alike (pairwise_not_conflicts_perm h) dependencies with
    hfail | ⟨t, t', g, g', ht, ht', hg, hg'⟩
  · exact .inl hfail
  · exact .inr ⟨t, t', g, g', ht, ht', hg, hg', Tree.rows_perm_of_perm h ht ht',
      Graph.sameByName_of_perm h hg hg'⟩

/-- Inner classes first, and a reference between two of the classes. -/
theorem ofClasses_of_perm_reverse :
    let dependencies : DependencyMap :=
      .ofList [(.parse "root", .ofList [.parse "ksys::act"])]
    ∃ t t' g g', Tree.ofClasses nestedClasses = .ok t ∧
      Tree.ofClasses nestedClasses.reverse = .ok t' ∧
      Graph.ofClasses nestedClasses dependencies = .ok g ∧
      Graph.ofClasses nestedClasses.reverse dependencies = .ok g' ∧
      t.rows.Perm t'.rows ∧ g.SameByName g' := by
  intro dependencies
  rcases ofClasses_of_perm nestedClasses.reverse_perm.symm dependencies with ⟨⟨e, ht, -⟩, -⟩ | h
  · obtain ⟨t, hok⟩ := (exists_tree_iff nestedClasses).mpr (by decide)
    simp [ht] at hok
  · exact h

end Hierarchy

end DecompTracker
