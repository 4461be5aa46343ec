import DecompTracker.Proofs.Hierarchy.Dependencies
import DecompTracker.Proofs.Hierarchy.Outcome

/-! Classes given more than once. A repeated entry finds the outline as its first occurrence left it:
it makes no node and no containment edge, but it gives its dependency edges again, and a refused one
is reported again. Up to such repeats the results are those of the list without them. -/
namespace DecompTracker.Hierarchy

namespace Outline

/-! Conflicts met before do not matter -/

theorem enter_conflicts (o : Outline) (before : List Conflict) (name : QualifiedName)
    (ps : List QualifiedName) :
    (⟨o.entries, before ++ o.conflicts⟩ : Outline).enter name ps =
      (⟨(o.enter name ps).1.entries, before ++ (o.enter name ps).1.conflicts⟩,
        (o.enter name ps).2) := by
  induction ps generalizing o with
  | nil => rfl
  | cons p ps ih =>
    rw [enter, enter]
    have hf : (⟨o.entries, before ++ o.conflicts⟩ : Outline).find? p.joined =
        o.find? p.joined := rfl
    rw [hf]
    cases o.find? p.joined with
    | none => exact ih (o.push p name)
    | some e =>
      by_cases hp : e.path = p
      · simp only [hp, if_true]
        exact ih o
      · simp [hp, report]

theorem addClass_conflicts (o : Outline) (before : List Conflict) (c : ClassStatus) :
    (⟨o.entries, before ++ o.conflicts⟩ : Outline).addClass c =
      ⟨(o.addClass c).entries, before ++ (o.addClass c).conflicts⟩ := by
  rw [addClass, addClass, enter_conflicts]
  cases o.enter c.name c.name.leads with
  | mk o' whole =>
    cases whole with
    | false => rfl
    | true =>
      have hf : (⟨o'.entries, before ++ o'.conflicts⟩ : Outline).find? c.name.joined =
          o'.find? c.name.joined := rfl
      simp only [describe, hf]
      cases (o'.find? c.name.joined).bind Entry.details with
      | none => rfl
      | some x => by_cases hx : x = c.toClassDetails <;> simp [hx, report]

/-- The addition of a class is the same to outlines with the same entries. -/
theorem exists_addClass_eq (entries : List Entry) (c : ClassStatus) :
    ∃ entries' new, ∀ conflicts : List Conflict,
      (⟨entries, conflicts⟩ : Outline).addClass c = ⟨entries', conflicts ++ new⟩ := by
  refine ⟨((⟨entries, []⟩ : Outline).addClass c).entries,
    ((⟨entries, []⟩ : Outline).addClass c).conflicts, fun conflicts => ?_⟩
  have h := addClass_conflicts ⟨entries, []⟩ conflicts c
  rwa [List.append_nil] at h

/-! Runs without the repeats -/

/-- The same entries, and the same conflicts up to repeats. -/
structure SameUpToRepeats (o o' : Outline) : Prop where
  entries : o.entries = o'.entries
  fewer : o.conflicts.Sublist o'.conflicts
  all : ∀ x ∈ o'.conflicts, x ∈ o.conflicts

theorem SameUpToRepeats.addClass {o o' : Outline} (h : o.SameUpToRepeats o') (c : ClassStatus) :
    (o.addClass c).SameUpToRepeats (o'.addClass c) := by
  obtain ⟨entries', new, hadd⟩ := exists_addClass_eq o.entries c
  have ho : o.addClass c = ⟨entries', o.conflicts ++ new⟩ := hadd o.conflicts
  have ho' : o'.addClass c = ⟨entries', o'.conflicts ++ new⟩ := by
    have := hadd o'.conflicts
    rwa [h.entries] at this
  rw [ho, ho']
  refine ⟨rfl, h.fewer.append_right new, fun x hx => ?_⟩
  rcases List.mem_append.mp hx with hx | hx
  · exact List.mem_append_left _ (h.all x hx)
  · exact List.mem_append_right _ hx

theorem sameUpToRepeats_of_mem {classes : List ClassStatus} {c : ClassStatus} (hc : c ∈ classes) :
    (ofClasses classes).SameUpToRepeats ((ofClasses classes).addClass c) := by
  obtain ⟨v, hv, hmem⟩ := exists_outcome_of_mem hc
  rw [(proper_ofClasses classes).addClass_of_outcome hv]
  refine ⟨rfl, List.sublist_append_left _ _, fun x hx => ?_⟩
  rcases List.mem_append.mp hx with hx | hx
  · exact hx
  · exact hmem x (Option.mem_toList.mp hx)

theorem SameUpToRepeats.trans {o o' o'' : Outline} (h : o.SameUpToRepeats o')
    (h' : o'.SameUpToRepeats o'') : o.SameUpToRepeats o'' :=
  ⟨h.entries.trans h'.entries, h.fewer.trans h'.fewer, fun x hx => h.all x (h'.all x hx)⟩

theorem sameUpToRepeats_eraseDups (classes : List ClassStatus) :
    (ofClasses classes.eraseDups).SameUpToRepeats (ofClasses classes) := by
  induction classes using List.reverseRecOn with
  | nil => exact ⟨rfl, .refl _, fun _ hx => hx⟩
  | append_singleton classes c ih =>
    rw [eraseDups_concat, ofClasses_concat]
    by_cases hc : c ∈ classes
    · rw [if_pos hc]
      exact ih.trans (sameUpToRepeats_of_mem hc)
    · rw [if_neg hc, ofClasses_concat]
      exact ih.addClass c

theorem SameUpToRepeats.conflicts_eq_nil_iff {o o' : Outline} (h : o.SameUpToRepeats o') :
    o.conflicts = [] ↔ o'.conflicts = [] := by
  constructor
  · intro hn
    refine List.eq_nil_iff_forall_not_mem.mpr fun x hx => ?_
    simpa [hn] using h.all x hx
  · intro hn
    have := h.fewer
    rwa [hn, List.sublist_nil] at this

end Outline

/-! Both forms -/

theorem alike_eraseDups {classes : List ClassStatus} {start d d' : Draft}
    (h : start.Grown d (.ofClasses classes.eraseDups)) (h' : start.Grown d' (.ofClasses classes)) :
    d.Alike d' where
  left := h.wellFormed
  right := h'.wellFormed
  rooted := h.rooted.trans h'.rooted.symm
  entries := by
    rw [h.outline, h'.outline]
    exact (Outline.sameUpToRepeats_eraseDups classes).entries

theorem Draft.subtree?_eq_of_nodes_eq {d d' : Draft} (h : d.nodes = d'.nodes) :
    d.subtree? = d'.subtree? := by
  funext depth
  induction depth with
  | zero => rfl
  | succ depth ih =>
    funext id
    rw [subtree?, subtree?, ih, h]

theorem edges_graphDraft (classes : List ClassStatus) (dependencies : DependencyMap) :
    (graphDraft classes dependencies).edges.toList =
      containments 0 (Outline.ofClasses classes).paths ++ classes.flatMap fun c =>
        (Draft.unrooted.addClasses classes).dependencyEdges dependencies c.name := by
  rw [graphDraft, Draft.addAllDependencies_eq, Array.toList_append,
    Draft.edges_addClasses_unrooted]

theorem nodup_containments (start : Nat) (paths : List QualifiedName) :
    (containments start paths).Nodup := by
  have hinc : ((containments start paths).map Edge.target).Pairwise (· < ·) := by
    rw [map_target_containments]
    exact pairwise_numbers _
  exact List.Nodup.of_map _ (hinc.imp Nat.ne_of_lt)

/-- Entries of a list without conflicts have different names when they differ. -/
theorem name_ne_of_pairwise {classes : List ClassStatus}
    (h : classes.Pairwise fun x y => ¬ x.Conflicts y) {x y : ClassStatus} (hx : x ∈ classes)
    (hy : y ∈ classes) (hne : x ≠ y) : x.name ≠ y.name := by
  intro hn
  have hd : x.toClassDetails ≠ y.toClassDetails := by
    intro hd
    cases x
    cases y
    simp_all
  obtain ⟨i, hi, rfl⟩ := List.getElem_of_mem hx
  obtain ⟨j, hj, rfl⟩ := List.getElem_of_mem hy
  have hpair := List.pairwise_iff_getElem.mp h
  rcases Nat.lt_trichotomy i j with hij | rfl | hji
  · exact hpair i j hi hj hij (.inr ⟨hn, hd⟩)
  · exact hne rfl
  · exact hpair j i hj hi hji (.inr ⟨hn.symm, hd.symm⟩)

section graph

variable {classes : List ClassStatus} (dependencies : DependencyMap)

theorem flatNodes_eraseDups :
    (graphDraft classes.eraseDups dependencies).flatNodes =
      (graphDraft classes dependencies).flatNodes := by
  have halike := alike_eraseDups (grown_graphDraft classes.eraseDups dependencies)
    (grown_graphDraft classes dependencies)
  rw [Draft.flatNodes, halike.nodes_eq, ← Draft.flatNodes]

theorem dependencyEdges_eraseDups (name : QualifiedName) :
    (Draft.unrooted.addClasses classes.eraseDups).dependencyEdges dependencies name =
      (Draft.unrooted.addClasses classes).dependencyEdges dependencies name := by
  have halike := alike_eraseDups (Draft.grown_unrooted classes.eraseDups)
    (Draft.grown_unrooted classes)
  rw [Draft.dependencyEdges, Draft.dependencyEdges, halike.classNode?_eq]

theorem edges_eraseDups (h : classes.Pairwise fun x y => ¬ x.Conflicts y) :
    (graphDraft classes.eraseDups dependencies).edges.toList =
      (graphDraft classes dependencies).edges.toList.eraseDups := by
  have hpaths : (Outline.ofClasses classes.eraseDups).paths = (Outline.ofClasses classes).paths :=
    congrArg (List.map Entry.path) (Outline.sameUpToRepeats_eraseDups classes).entries
  have hdisjoint : List.Disjoint (containments 0 (Outline.ofClasses classes).paths)
      (classes.flatMap fun c =>
        (Draft.unrooted.addClasses classes).dependencyEdges dependencies c.name) := by
    intro e hc he
    obtain ⟨_, _, -, -, hkind⟩ := mem_containments.mp hc
    obtain ⟨c, -, he⟩ := List.mem_flatMap.mp he
    have hdep := (Draft.mem_dependencyEdges he).2
    rw [hkind] at hdep
    simp at hdep
  rw [edges_graphDraft, edges_graphDraft, eraseDups_append_of_disjoint (nodup_containments _ _)
    hdisjoint, eraseDups_flatMap, hpaths]
  · simp only [dependencyEdges_eraseDups]
  · exact fun c _ => Draft.nodup_dependencyEdges _ dependencies c.name
  · exact fun x hx y hy hne =>
      Draft.disjoint_dependencyEdges (name_ne_of_pairwise h hx hy hne)

end graph

/-- Without the repeated entries of a list the tree is the same, the graph loses repeated edges, and
a failure loses repeated conflicts. -/
theorem ofClasses_eraseDups (classes : List ClassStatus) (dependencies : DependencyMap) :
    (∀ t, Tree.ofClasses classes = .ok t → Tree.ofClasses classes.eraseDups = .ok t) ∧
      (∀ g, Graph.ofClasses classes dependencies = .ok g →
        Graph.ofClasses classes.eraseDups dependencies =
          .ok { g with edges := g.edges.eraseDups }) ∧
      ∀ e, Tree.ofClasses classes = .error e ∨ Graph.ofClasses classes dependencies = .error e →
        ∃ e', Tree.ofClasses classes.eraseDups = .error e' ∧
          Graph.ofClasses classes.eraseDups dependencies = .error e' ∧
          e'.conflicts.Sublist e.conflicts ∧ ∀ x ∈ e.conflicts, x ∈ e'.conflicts := by
  have hsame := Outline.sameUpToRepeats_eraseDups classes
  have hnil := hsame.conflicts_eq_nil_iff
  by_cases hc : (Outline.ofClasses classes).conflicts = []
  · have hc' := hnil.mpr hc
    have hpair := (Outline.conflicts_ofClasses classes).1.mp hc
    have hnodes := (alike_eraseDups (grown_treeDraft classes.eraseDups)
      (grown_treeDraft classes)).nodes_eq
    rw [Tree.ofClasses_eq, Tree.ofClasses_eq, Graph.ofClasses_eq, Graph.ofClasses_eq, if_pos hc,
      if_pos hc, if_pos hc', if_pos hc', Draft.subtree?_eq_of_nodes_eq hnodes, hnodes,
      flatNodes_eraseDups, edges_eraseDups dependencies hpair]
    refine ⟨fun t ht => ht, fun g hg => ?_, by simp⟩
    obtain rfl := Except.ok.inj hg
    rfl
  · have hc' := mt hnil.mp hc
    rw [Tree.ofClasses_eq, Tree.ofClasses_eq, Graph.ofClasses_eq, Graph.ofClasses_eq, if_neg hc,
      if_neg hc, if_neg hc', if_neg hc']
    refine ⟨by simp, by simp, fun e he => ?_⟩
    obtain rfl : (⟨(Outline.ofClasses classes).conflicts⟩ : Inconsistency) = e := by simpa using he
    exact ⟨_, rfl, rfl, hsame.fewer, hsame.all⟩

/-- A class that refers to another one, given twice. -/
def repeatedActor : List ClassStatus :=
  [.undecompiled (.parse "Actor"), .undecompiled (.parse "Heap"), .undecompiled (.parse "Actor")]

def actorUsesHeap : DependencyMap := .ofList [(.parse "Actor", .ofList [.parse "Heap"])]

def repeatedActorGraph : Graph where
  nodes := [⟨0, "Actor", .classified .undecompiled⟩, ⟨1, "Heap", .classified .undecompiled⟩]
  edges := [⟨0, 1, .dependsOn⟩, ⟨0, 1, .dependsOn⟩]

/-- A class with other details, given twice. -/
def repeatedRefusal : List ClassStatus :=
  [⟨⟨.undecompiled, 0, 0⟩, .parse "Actor"⟩, ⟨⟨.decompiled, 1, 8⟩, .parse "Actor"⟩,
    ⟨⟨.decompiled, 1, 8⟩, .parse "Actor"⟩]

theorem ofClasses_eraseDups_repeatedActor :
    (∃ t, Tree.ofClasses repeatedActor = .ok t ∧
      Tree.ofClasses repeatedActor.eraseDups = .ok t) ∧
    (Graph.ofClasses repeatedActor actorUsesHeap = .ok repeatedActorGraph ∧
      Graph.ofClasses repeatedActor.eraseDups actorUsesHeap =
        .ok { repeatedActorGraph with edges := repeatedActorGraph.edges.eraseDups }) ∧
    ∃ e, Tree.ofClasses repeatedRefusal = .error e ∧
      ∃ e', Tree.ofClasses repeatedRefusal.eraseDups = .error e' ∧
        Graph.ofClasses repeatedRefusal.eraseDups actorUsesHeap = .error e' ∧
        e'.conflicts.Sublist e.conflicts ∧ ∀ x ∈ e.conflicts, x ∈ e'.conflicts :=
  ⟨⟨_, rfl, (ofClasses_eraseDups repeatedActor actorUsesHeap).1 _ rfl⟩,
    ⟨rfl, (ofClasses_eraseDups repeatedActor actorUsesHeap).2.1 _ rfl⟩,
    ⟨_, rfl, (ofClasses_eraseDups repeatedRefusal actorUsesHeap).2.2 _ (.inl rfl)⟩⟩

/-- The repeated entry shows: its dependency edge comes twice, and its refusal is reported twice. -/
theorem exists_repeat_that_shows :
    (∃ g g', Graph.ofClasses repeatedActor actorUsesHeap = .ok g ∧
      Graph.ofClasses repeatedActor.eraseDups actorUsesHeap = .ok g' ∧
      g.edges.length = 2 ∧ g'.edges.length = 1) ∧
    ∃ e e', Tree.ofClasses repeatedRefusal = .error e ∧
      Tree.ofClasses repeatedRefusal.eraseDups = .error e' ∧
      e.conflicts.length = 2 ∧ e'.conflicts.length = 1 :=
  ⟨⟨_, _, rfl, rfl, rfl, rfl⟩, ⟨_, _, rfl, rfl, rfl, rfl⟩⟩

end DecompTracker.Hierarchy
