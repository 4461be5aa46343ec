import DecompTracker.Proofs.Hierarchy.ByName
import DecompTracker.Proofs.Hierarchy.Unfolding

/-! Searching a finished tree for a written name. Names are told apart by how they are written, so at
most one node is found, and one is found exactly for what some class writes. The node of a class is
the root of a tree of its own, whose nodes and classes are those that the class has inside it. -/
namespace DecompTracker.Hierarchy

/-- What the classes write for leads that go on beyond a name, each text once. -/
def writtenBelow (classes : List ClassStatus) (name : QualifiedName) : List String :=
  (((classes.flatMap fun c => c.name.leads).filter fun p => name.IsLeadOf p ∧ p ≠ name).map
    QualifiedName.joined).eraseDups

/-- The classes whose names go on beyond a name, each once. -/
def classesBelow (classes : List ClassStatus) (name : QualifiedName) : List QualifiedName :=
  ((classes.map ClassStatus.name).filter fun p => name.IsLeadOf p ∧ p ≠ name).eraseDups

/-- How the node of a class looks. -/
structure Tree.IsNodeOf (t : Tree) (c : ClassStatus) (classes : List ClassStatus) : Prop where
  details : t.details = some c.toClassDetails
  count : t.count = (writtenBelow classes c.name).length + 1
  classCount : t.classCount = (classesBelow classes c.name).length + 1

/-! Counting below a name -/

/-- A list without repeats holds a name that leads to itself and those it leads to beyond. -/
theorem filter_isLeadOf_perm {names : List QualifiedName} (hn : names.Nodup) {name : QualifiedName}
    (hname : name ∈ names) : (names.filter fun p => name.IsLeadOf p).Perm
      (name :: names.filter fun p => name.IsLeadOf p ∧ p ≠ name) := by
  have hcons : (name :: names.filter fun p => name.IsLeadOf p ∧ p ≠ name).Nodup :=
    List.nodup_cons.mpr ⟨by simp, hn.filter _⟩
  refine (List.perm_ext_iff_of_nodup (hn.filter _) hcons).mpr fun p => ?_
  simp only [List.mem_filter, List.mem_cons, decide_eq_true_eq]
  constructor
  · rintro ⟨hp, hlead⟩
    by_cases h : p = name
    · exact .inl h
    · exact .inr ⟨hp, hlead, h⟩
  · rintro (rfl | ⟨hp, hlead, -⟩)
    · exact ⟨hname, .refl p⟩
    · exact ⟨hp, hlead⟩

namespace Outline

variable {o : Outline} {classes : List ClassStatus} {name : QualifiedName}

theorem Holds.writtenBelow_perm (ho : o.Proper) (hh : o.Holds classes) (name : QualifiedName) :
    (writtenBelow classes name).Perm
      ((o.paths.filter fun p => name.IsLeadOf p ∧ p ≠ name).map QualifiedName.joined) := by
  have hnodup : ((o.paths.filter fun p => name.IsLeadOf p ∧ p ≠ name).map
      QualifiedName.joined).Nodup :=
    ho.distinct.sublist (List.filter_sublist.map _)
  refine (List.perm_ext_iff_of_nodup (nodup_eraseDups _) hnodup).mpr fun written => ?_
  simp only [List.mem_eraseDups, List.mem_map, List.mem_filter, hh.paths, allLeads]

theorem Holds.length_below (ho : o.Proper) (hh : o.Holds classes) (hname : name ∈ o.paths) :
    (o.entries.filter fun e => name.IsLeadOf e.path).length =
      (writtenBelow classes name).length + 1 := by
  have hpaths : (o.paths.filter fun p => name.IsLeadOf p) =
      (o.entries.filter fun e => name.IsLeadOf e.path).map Entry.path := by
    rw [Outline.paths, List.filter_map]
    rfl
  rw [(hh.writtenBelow_perm ho name).length_eq, List.length_map, ← List.length_cons (a := name),
    ← (filter_isLeadOf_perm ho.nodup_paths hname).length_eq, hpaths, List.length_map]

theorem Holds.countP_below (ho : o.Proper) (hh : o.Holds classes) {c : ClassStatus}
    (hc : c ∈ classes) :
    (o.entries.filter fun e => c.name.IsLeadOf e.path).countP (fun e => e.details.isSome) =
      (classesBelow classes c.name).length + 1 := by
  have hmem : c.name ∈ (classes.map ClassStatus.name).eraseDups :=
    List.mem_eraseDups.mpr (List.mem_map_of_mem hc)
  have hbelow : (classesBelow classes c.name).Perm
      ((classes.map ClassStatus.name).eraseDups.filter fun p => c.name.IsLeadOf p ∧ p ≠ c.name) := by
    refine (List.perm_ext_iff_of_nodup (nodup_eraseDups _) ((nodup_eraseDups _).filter _)).mpr
      fun p => ?_
    simp only [List.mem_eraseDups, List.mem_filter]
  have hclasses : ((o.entries.filter fun e => c.name.IsLeadOf e.path).filter fun e =>
      e.details.isSome).map Entry.path =
        ((o.entries.filter fun e => e.details.isSome).map Entry.path).filter
          fun p => c.name.IsLeadOf p := by
    rw [List.filter_map, List.filter_comm]
    rfl
  rw [List.countP_eq_length_filter, ← List.length_map (f := Entry.path), hclasses,
    ((hh.classPaths_perm ho).filter _).length_eq,
    (filter_isLeadOf_perm (nodup_eraseDups _) hmem).length_eq, List.length_cons, hbelow.length_eq]

end Outline

/-! Finding by name -/

/-- Searching gives the first node with the name, so the only one when there is one. -/
theorem Tree.find?_eq_head?_filter (t : Tree) (written : String) :
    t.find? written = (t.nodes.filter fun n => n.name = written).head? := by
  rw [find?, List.head?_filter]
  rfl

namespace Draft

variable {d : Draft} {depth : Nat} {t m : Tree}

/-- A node of the tree that is not named like the root stands for a path written like its name. -/
theorem WellFormed.exists_shows_of_name (hd : d.WellFormed) (hr : d.rooted)
    (h : d.subtree? depth 0 = some t) (hm : m ∈ t.nodes) (hname : m.name ≠ rootName) :
    ∃ n, d.Shows m n ∧ d.Above (some m.id) (some n.path) ∧ n.path.joined = m.name := by
  obtain ⟨n, hn⟩ := exists_shows h m hm
  have hshown := hn.name_eq hd hr
  cases hs : d.standsFor m.id n with
  | none =>
    rw [hs] at hshown
    exact absurd hshown hname
  | some p =>
    have habove := above_of_standsFor hn.found hs
    obtain ⟨-, rfl⟩ := standsFor_eq_some_iff.mp hs
    rw [hs] at hshown
    exact ⟨n, hn, habove, hshown.symm⟩

/-- Of each path that is not written like the root there is exactly one node with that name. -/
theorem WellFormed.exists_filter_name (hd : d.WellFormed) (hr : d.rooted)
    (h : d.subtree? depth 0 = some t) {p : QualifiedName} (hp : p ∈ d.paths)
    (hroot : p.joined ≠ rootName) :
    ∃ m, d.Above (some m.id) (some p) ∧ t.nodes.filter (fun n => n.name = p.joined) = [m] := by
  obtain ⟨j, hj⟩ := exists_above hp
  have hids := hd.ids_perm hr h
  have hmem : j ∈ t.ids := hids.mem_iff.mpr (List.mem_range.mpr (hj.lt_size hd.toLinked))
  obtain ⟨m, hm, rfl⟩ := List.mem_map.mp hmem
  obtain ⟨n, hn⟩ := exists_shows h m hm
  obtain ⟨-, hpath⟩ := standsFor_eq_some_iff.mp ((hd.above_iff hj hn.found).mp rfl)
  have hname : m.name = p.joined := by rw [hn.name, hd.named _ n hn.found, hpath]
  classical
  refine ⟨m, hj, filter_eq_singleton (hids.nodup_iff.mpr List.nodup_range) hm fun u hu => ?_⟩
  rw [decide_eq_true_eq]
  constructor
  · intro hname'
    obtain ⟨n', -, hu', hj'⟩ := hd.exists_shows_of_name hr h hu (hname' ▸ hroot)
    have hpq : n'.path = p := hd.proper.path_eq hu'.mem_paths hp (hj'.trans hname')
    exact hd.id_eq_of_above (hpq ▸ hu') hj
  · intro hid
    obtain ⟨n', hn'⟩ := exists_shows h u hu
    have hfound := hn'.found
    rw [hid, hn.found] at hfound
    rw [hn'.name, ← Option.some.inj hfound, ← hn.name, hname]

theorem WellFormed.exists_path_of_find? (hd : d.WellFormed) (hr : d.rooted)
    (h : d.subtree? depth 0 = some t) {written : String} (hroot : written ≠ rootName)
    (hm : t.find? written = some m) : ∃ p ∈ d.paths, p.joined = written := by
  rw [t.find?_eq_head?_filter] at hm
  obtain ⟨hmem, hname⟩ := List.mem_filter.mp (List.mem_of_head? hm)
  obtain rfl : m.name = written := by simpa using hname
  obtain ⟨n, -, habove, hj⟩ := hd.exists_shows_of_name hr h hmem hroot
  exact ⟨n.path, habove.mem_paths, hj⟩

theorem WellFormed.exists_find? (hd : d.WellFormed) (hr : d.rooted)
    (h : d.subtree? depth 0 = some t) {p : QualifiedName} (hp : p ∈ d.paths)
    (hroot : p.joined ≠ rootName) :
    ∃ m, t.find? p.joined = some m ∧ t.nodes.filter (fun n => n.name = p.joined) = [m] ∧
      d.Above (some m.id) (some p) := by
  obtain ⟨m, habove, hm⟩ := hd.exists_filter_name hr h hp hroot
  exact ⟨m, by rw [t.find?_eq_head?_filter, hm, List.head?_cons], hm, habove⟩

/-- The node that stands for the name of a class. -/
theorem WellFormed.isNodeOf (hd : d.WellFormed) {classes : List ClassStatus}
    (hh : d.outline.Holds classes) (h : d.subtree? depth 0 = some t) (hm : m ∈ t.nodes)
    {c : ClassStatus} (hc : c ∈ classes) (habove : d.Above (some m.id) (some c.name)) :
    m.IsNodeOf c classes := by
  have hsub := hd.subtree?_of_unfolds ((unfolds_of_subtree h).of_mem_nodes m hm)
  refine ⟨?_, ?_, ?_⟩
  · obtain ⟨n, hn⟩ := exists_shows h m hm
    obtain ⟨hbase, hpath⟩ := standsFor_eq_some_iff.mp ((hd.above_iff habove hn.found).mp rfl)
    rw [hn.details]
    exact (hh.details _ (entry_mem hn.found hbase) _).mpr ⟨c, hc, hpath.symm, rfl⟩
  · have hlen := (hd.shown_perm_of_above habove hsub (f := fun _ => ()) (g := fun _ => ())
      fun _ _ _ => rfl).length_eq
    rw [List.length_map, List.length_map] at hlen
    rw [Tree.count, hlen]
    exact hh.length_below hd.proper habove.mem_paths
  · have hcount := (hd.shown_perm_of_above habove hsub (f := Tree.details) (g := Entry.details)
      fun _ _ hs => hs.details).countP_eq Option.isSome
    rw [List.countP_map, List.countP_map] at hcount
    refine (List.countP_congr fun n _ => ?_).trans (hcount.trans (hh.countP_below hd.proper hc))
    rw [Tree.kind, NodeKind.isClass_ofDetails]
    rfl

end Draft

/-- Apart from the root, a search finds exactly what the classes write, each time the one node with
this name; the node of a class has its details and counts what the class has inside it. -/
theorem Tree.find?_of_ofClasses {classes : List ClassStatus} {t : Tree}
    (h : Tree.ofClasses classes = .ok t) {written : String} (hroot : written ≠ rootName) :
    ((t.find? written).isSome ↔
      ∃ c ∈ classes, ∃ p : QualifiedName, p.IsLeadOf c.name ∧ p.joined = written) ∧
    ∀ n, t.find? written = some n → t.nodes.filter (fun m => m.name = written) = [n] ∧
      ∀ c ∈ classes, c.name.joined = written → n.IsNodeOf c classes := by
  have hg := grown_treeDraft classes
  have hd := hg.wellFormed
  have hr : (treeDraft classes).rooted := hg.rooted.trans rfl
  obtain ⟨hh, hsub⟩ := subtree_of_ofClasses h
  rw [← hg.outline] at hh
  have hpaths : (treeDraft classes).paths = allLeads classes := hh.paths
  refine ⟨?_, fun n hn => ?_⟩
  · rw [Option.isSome_iff_exists]
    constructor
    · intro ⟨n, hn⟩
      obtain ⟨p, hp, hj⟩ := hd.exists_path_of_find? hr hsub hroot hn
      obtain ⟨c, hc, hlead⟩ := mem_allLeads.mp (hpaths ▸ hp)
      exact ⟨c, hc, p, hlead, hj⟩
    · intro ⟨c, hc, p, hlead, hj⟩
      subst hj
      obtain ⟨m, hm, -⟩ := hd.exists_find? hr hsub
        (hpaths ▸ mem_allLeads.mpr ⟨c, hc, hlead⟩) hroot
      exact ⟨m, hm⟩
  · obtain ⟨p, hp, rfl⟩ := hd.exists_path_of_find? hr hsub hroot hn
    obtain ⟨m, hm, honly, habove⟩ := hd.exists_find? hr hsub hp hroot
    obtain rfl := Option.some.inj (hn.symm.trans hm)
    refine ⟨honly, fun c hc hj => ?_⟩
    have hname : c.name = p := hd.proper.path_eq (hh.mem_paths hc) hp hj
    have hmem : n ∈ t.nodes := List.mem_of_find?_eq_some hn
    exact hd.isNodeOf hh hsub hmem hc (hname ▸ habove)

example : writtenBelow nestedClasses (.parse "ksys::act") =
    ["ksys::act::Actor", "ksys::act::Actor::State"] := by decide

theorem Tree.find?_of_ofClasses_nestedClasses : ∃ t n, Tree.ofClasses nestedClasses = .ok t ∧
    "ksys::act" ≠ rootName ∧ t.find? "ksys::act" = some n ∧ n.details = some ⟨.decompiled, 1, 8⟩ ∧
      n.count = 3 ∧ n.classCount = 3 := by
  obtain ⟨t, ht⟩ := (exists_tree_iff nestedClasses).mpr (by decide)
  have hroot : "ksys::act" ≠ rootName := by decide
  obtain ⟨hiff, hnode⟩ := find?_of_ofClasses ht hroot
  have hclass : (⟨⟨.decompiled, 1, 8⟩, .parse "ksys::act"⟩ : ClassStatus) ∈ nestedClasses := by
    decide
  obtain ⟨n, hn⟩ := Option.isSome_iff_exists.mp
    (hiff.mpr ⟨_, hclass, .parse "ksys::act", .refl _, by decide⟩)
  have hshown := (hnode n hn).2 _ hclass (by decide)
  refine ⟨t, n, ht, hroot, hn, hshown.details, ?_, ?_⟩
  · rw [hshown.count]
    decide
  · rw [hshown.classCount]
    decide

end DecompTracker.Hierarchy
