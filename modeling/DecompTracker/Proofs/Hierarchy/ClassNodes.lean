import DecompTracker.Proofs.Hierarchy.References
import DecompTracker.Proofs.Hierarchy.TwoForms

/-! The classes that hierarchies show. Of classes with different names, each is shown by one node,
with its written name and its details, and no other node is a class. Hence both forms count as many
classes as there are, and they differ by the root alone. -/
namespace DecompTracker.Hierarchy

def NodeKind.status? : NodeKind → Option StatusKind
  | scope => none
  | classified status => some status

/-- Written names and details of the nodes that are classes. -/
def Tree.classes (t : Tree) : List (String × ClassDetails) :=
  t.nodes.filterMap fun n => n.details.map (n.name, ·)

/-- Written names and statuses of the nodes that are classes. -/
def Graph.classes (g : Graph) : List (String × StatusKind) :=
  g.nodes.filterMap fun n => n.kind.status?.map (n.name, ·)

theorem Tree.length_classes (t : Tree) : t.classes.length = t.classCount := by
  rw [classes, List.length_filterMap_eq_countP, classCount]
  refine List.countP_congr fun n _ => ?_
  rw [kind, NodeKind.isClass_ofDetails, Option.isSome_map]

variable {classes : List ClassStatus}

/-! Entries of an outline -/

def Entry.shown (e : Entry) : Option (String × ClassDetails) := e.details.map (e.path.joined, ·)

theorem Entry.shown_eq_some_iff {e : Entry} {x : String × ClassDetails} :
    e.shown = some x ↔ e.path.joined = x.1 ∧ e.details = some x.2 := by
  simp only [shown, Option.map_eq_some_iff, Prod.ext_iff]
  constructor
  · rintro ⟨_, hd, hj, rfl⟩
    exact ⟨hj, hd⟩
  · rintro ⟨hj, hd⟩
    exact ⟨_, hd, hj, rfl⟩

theorem Outline.Proper.nodup_shown {o : Outline} (ho : o.Proper) :
    (o.entries.filterMap Entry.shown).Nodup := by
  have hdistinct := ho.distinct
  rw [paths, List.map_map] at hdistinct
  refine List.pairwise_filterMap.mpr ((List.pairwise_map.mp hdistinct).imp fun hne x hx y hy => ?_)
  rintro rfl
  exact hne ((Entry.shown_eq_some_iff.mp hx).1.trans (Entry.shown_eq_some_iff.mp hy).1.symm)

theorem Outline.Holds.nodup_joined {o : Outline} (ho : o.Proper) (hh : o.Holds classes)
    (hn : (classes.map ClassStatus.name).Nodup) :
    (classes.map fun c => c.name.joined).Nodup := by
  have hjoined := hn.map_on fun p hp q hq hj => by
    obtain ⟨c, hc, rfl⟩ := List.mem_map.mp hp
    obtain ⟨c', hc', rfl⟩ := List.mem_map.mp hq
    exact ho.path_eq (hh.mem_paths hc) (hh.mem_paths hc') hj
  rwa [List.map_map] at hjoined

theorem Outline.Holds.shown_perm {o : Outline} (ho : o.Proper) (hh : o.Holds classes)
    (hn : (classes.map ClassStatus.name).Nodup) :
    (o.entries.filterMap Entry.shown).Perm
      (classes.map fun c => (c.name.joined, c.toClassDetails)) := by
  have hnodup : (classes.map fun c => (c.name.joined, c.toClassDetails)).Nodup := by
    refine List.Nodup.of_map Prod.fst ?_
    rw [List.map_map]
    exact hh.nodup_joined ho hn
  refine (List.perm_ext_iff_of_nodup ho.nodup_shown hnodup).mpr fun x => ?_
  simp only [List.mem_filterMap, List.mem_map, Entry.shown_eq_some_iff]
  constructor
  · rintro ⟨e, he, hj, hd⟩
    obtain ⟨c, hc, hname, hx⟩ := (hh.details e he x.2).mp hd
    exact ⟨c, hc, Prod.ext (by rw [hname, hj]) hx⟩
  · rintro ⟨c, hc, rfl⟩
    obtain ⟨e, he, hp⟩ := Outline.mem_paths.mp (hh.mem_paths hc)
    exact ⟨e, he, by rw [hp], (hh.details e he _).mpr ⟨c, hc, hp.symm, rfl⟩⟩

/-! Nodes of a draft -/

section drafts

variable {d : Draft}

theorem Draft.classes_subtree (hd : d.WellFormed) (hr : d.rooted) {depth : Nat} {t : Tree}
    (h : d.subtree? depth 0 = some t) : t.classes.Perm (d.entries.filterMap Entry.shown) := by
  have hmap : (t.nodes.map fun n => n.details.map (n.name, ·)).Perm
      (d.nodes.toList.map fun n => n.entry.shown) := by
    refine hd.shown_perm hr h fun m n hs => ?_
    rw [hs.details, hs.name, hd.named _ n hs.found]
    rfl
  have hshown := hmap.filterMap id
  rw [List.filterMap_map, List.filterMap_map] at hshown
  -- The root is no class.
  have hroot : rootNode.entry.shown = none := rfl
  have hentries := congrArg (List.filterMap Entry.shown) (hd.map_entry_eq hr)
  rw [List.filterMap_cons_none hroot, List.filterMap_map] at hentries
  exact hentries ▸ hshown

theorem Draft.classes_flatNodes (hd : d.WellFormed) (hbase : d.base = 0) (edges : List Edge) :
    (⟨d.flatNodes, edges⟩ : Graph).classes =
      (d.entries.filterMap Entry.shown).map fun x => (x.1, x.2.status) := by
  have hnode : ∀ n ∈ d.nodes.toList, n.kind.status?.map (n.name, ·) =
      n.entry.shown.map fun x => (x.1, x.2.status) := by
    intro n hn
    obtain ⟨id, hid⟩ := List.mem_iff_getElem?.mp hn
    have hname : n.name = n.path.joined := hd.named id n (by simpa using hid)
    rw [hname, Node.kind, Entry.shown, Node.entry]
    cases n.details <;> rfl
  calc (⟨d.flatNodes, edges⟩ : Graph).classes
      = (d.nodes.toList.zipIdx.map Prod.fst).filterMap fun n =>
          n.kind.status?.map (n.name, ·) := by
        rw [Graph.classes, flatNodes, List.filterMap_map, List.filterMap_map]
        rfl
    _ = d.nodes.toList.filterMap fun n => n.entry.shown.map fun x => (x.1, x.2.status) := by
        rw [List.zipIdx_map_fst, List.filterMap_congr hnode]
    _ = (d.entries.filterMap Entry.shown).map fun x => (x.1, x.2.status) := by
        rw [entries, hbase, List.drop_zero, List.filterMap_map, List.map_filterMap]
        rfl

end drafts

/-! The classes of finished hierarchies -/

/-- The nested form shows each class once, and no other class. -/
theorem Tree.classes_perm {t : Tree} (h : Tree.ofClasses classes = .ok t)
    (hn : (classes.map ClassStatus.name).Nodup) :
    t.classes.Perm (classes.map fun c => (c.name.joined, c.toClassDetails)) := by
  obtain ⟨hh, hsub⟩ := subtree_of_ofClasses h
  have hg := grown_treeDraft classes
  have hshown := Draft.classes_subtree hg.wellFormed (hg.rooted.trans rfl) hsub
  rw [hg.entries_eq] at hshown
  exact hshown.trans (hh.shown_perm (Outline.proper_ofClasses classes) hn)

theorem Graph.classes_perm {g : Graph} {dependencies : DependencyMap}
    (h : Graph.ofClasses classes dependencies = .ok g)
    (hn : (classes.map ClassStatus.name).Nodup) :
    g.classes.Perm (classes.map fun c => (c.name.joined, c.status)) := by
  obtain ⟨hh, rfl⟩ := eq_of_ofClasses h
  have hg := grown_graphDraft classes dependencies
  have hbase := Draft.base_of_unrooted (hg.rooted.trans rfl)
  have hperm := (hh.shown_perm (Outline.proper_ofClasses classes) hn).map fun x => (x.1, x.2.status)
  rw [List.map_map] at hperm
  rw [Draft.classes_flatNodes hg.wellFormed hbase, hg.entries_eq]
  exact hperm

/-- The nested form has one node more, its root. -/
theorem count_eq_of_ofClasses {t : Tree} {g : Graph} {dependencies : DependencyMap}
    (ht : Tree.ofClasses classes = .ok t) (hg : Graph.ofClasses classes dependencies = .ok g) :
    t.count = g.nodes.length + 1 := by
  obtain ⟨hh, hsub⟩ := Tree.subtree_of_ofClasses ht
  have hgrown := grown_treeDraft classes
  have hcount := Tree.count_eq hgrown.wellFormed (hgrown.rooted.trans rfl)
    (hgrown.outline ▸ hh) hsub
  rw [hcount, ← (Graph.reflects_of_ofClasses hg).names, List.length_map]

end DecompTracker.Hierarchy
