import DecompTracker.Proofs.Classification.Progress
import DecompTracker.Proofs.Hierarchy.ByName

/-! Hierarchies of the same classes at a later stage. Names alone decide which nodes there are, how
they are numbered and linked, and whether classes of different names can stand in one hierarchy, so
when the statuses of classes rise nothing else in their hierarchies changes. -/
namespace DecompTracker.Hierarchy

/-! Later stages -/

/-- A class stays one and its status does not fall. -/
inductive NodeKind.Raised : NodeKind → NodeKind → Prop
  | scope : Raised .scope .scope
  | classified {status status' : StatusKind} (h : status ≤ status') :
      Raised (.classified status) (.classified status')

structure FlatNode.Raised (n n' : FlatNode) : Prop where
  id : n.id = n'.id
  name : n.name = n'.name
  kind : n.kind.Raised n'.kind

/-- The nodes keep their numbers and names, and the edges stay as they are. -/
structure Graph.Raised (g g' : Graph) : Prop where
  nodes : List.Forall₂ FlatNode.Raised g.nodes g'.nodes
  edges : g.edges = g'.edges

/-- The nodes keep their numbers, names and places; those that are classes may rise. -/
inductive Tree.Raised : Tree → Tree → Prop
  | node {id : NodeId} {name : String} {details details' : Option ClassDetails}
      {children children' : List Tree} (hdetails : Option.Rel ClassDetails.Raised details details')
      (hchildren : List.Forall₂ Raised children children') :
      Raised (.node id name details children) (.node id name details' children')

structure Entry.Raised (e e' : Entry) : Prop where
  path : e.path = e'.path
  details : Option.Rel ClassDetails.Raised e.details e'.details

theorem NodeKind.raised_ofDetails {x? x'? : Option ClassDetails}
    (h : Option.Rel ClassDetails.Raised x? x'?) :
    (ofDetails x?).Raised (ofDetails x'?) := by
  cases h with
  | some hx => exact .classified hx.status
  | none => exact .scope

/-! Names alone -/

section names

variable {classes classes' : List ClassStatus}

theorem map_name_raised (h : List.Forall₂ ClassStatus.Raised classes classes') :
    classes.map ClassStatus.name = classes'.map ClassStatus.name :=
  map_eq_of_forall₂ (fun _ _ hc => hc.name) h

theorem allLeads_eq (classes : List ClassStatus) :
    allLeads classes =
      ((classes.map ClassStatus.name).flatMap QualifiedName.leads).eraseDups := by
  rw [List.flatMap_map]
  rfl

theorem allLeads_congr (h : classes.map ClassStatus.name = classes'.map ClassStatus.name) :
    allLeads classes = allLeads classes' := by
  rw [allLeads_eq, allLeads_eq, h]

/-- Classes of different names conflict by their names only. -/
theorem pairwise_not_conflicts_iff (hn : (classes.map ClassStatus.name).Nodup) :
    (classes.Pairwise fun x y => ¬ x.Conflicts y) ↔
      (classes.map ClassStatus.name).Pairwise fun a b =>
        ∀ p q : QualifiedName, p.IsLeadOf a → q.IsLeadOf b → p.joined = q.joined → p = q := by
  rw [List.pairwise_map]
  constructor
  · intro h
    refine h.imp fun hxy p q hp hq hj => ?_
    by_contra hne
    exact hxy (.inl ⟨p, q, hp, hq, hj, hne⟩)
  · intro h
    refine ((List.pairwise_map.mp hn).and h).imp fun hxy hc => ?_
    rcases hc with ⟨p, q, hp, hq, hj, hne⟩ | ⟨hname, -⟩
    · exact hne (hxy.2 p q hp hq hj)
    · exact hxy.1 hname

theorem pairwise_not_conflicts_congr (hn : (classes.map ClassStatus.name).Nodup)
    (h : classes.map ClassStatus.name = classes'.map ClassStatus.name) :
    (classes.Pairwise fun x y => ¬ x.Conflicts y) ↔
      classes'.Pairwise fun x y => ¬ x.Conflicts y := by
  rw [pairwise_not_conflicts_iff hn, pairwise_not_conflicts_iff (h ▸ hn), h]

theorem referenceEdges_congr_names (idOf : QualifiedName → NodeId) (dependencies : DependencyMap)
    (h : classes.map ClassStatus.name = classes'.map ClassStatus.name) :
    referenceEdges idOf classes (knownTargets classes dependencies) =
      referenceEdges idOf classes' (knownTargets classes' dependencies) := by
  have hnames (cs : List ClassStatus) (targets : QualifiedName → List QualifiedName) :
      referenceEdges idOf cs targets = (cs.map ClassStatus.name).flatMap fun name =>
        (targets name).map fun target => ⟨idOf name, idOf target, .dependsOn⟩ := by
    rw [List.flatMap_map]
    rfl
  have htargets : knownTargets classes dependencies = knownTargets classes' dependencies := by
    funext name
    rw [knownTargets, knownTargets, h]
  rw [hnames, hnames, htargets, h]

end names

/-! Entries -/

section entries

variable {classes classes' : List ClassStatus} {o o' : Outline}

/-- What is known of a name at the later stage has been known before. -/
theorem rel_details (h : List.Forall₂ ClassStatus.Raised classes classes') {p : QualifiedName}
    {x? x'? : Option ClassDetails}
    (hx : ∀ y, x? = some y ↔ ∃ c ∈ classes, c.name = p ∧ c.toClassDetails = y)
    (hx' : ∀ y, x'? = some y ↔ ∃ c ∈ classes', c.name = p ∧ c.toClassDetails = y) :
    Option.Rel ClassDetails.Raised x? x'? := by
  cases x? with
  | some y =>
    obtain ⟨c, hc, rfl, rfl⟩ := (hx y).mp rfl
    obtain ⟨c', hc', hr⟩ := exists_of_forall₂ h c hc
    rw [(hx' _).mpr ⟨c', hc', hr.name.symm, rfl⟩]
    exact .some hr.details
  | none =>
    cases x'? with
    | none => exact .none
    | some y' =>
      obtain ⟨c', hc', rfl, -⟩ := (hx' y').mp rfl
      obtain ⟨c, hc, hr⟩ := exists_of_forall₂_right h c' hc'
      have hsome := (hx _).mpr ⟨c, hc, hr.name, rfl⟩
      simp at hsome

theorem Outline.Holds.raised (hh : o.Holds classes) (hh' : o'.Holds classes')
    (h : List.Forall₂ ClassStatus.Raised classes classes') :
    List.Forall₂ Entry.Raised o.entries o'.entries := by
  have hpaths : o.entries.map Entry.path = o'.entries.map Entry.path :=
    hh.paths.trans ((allLeads_congr (map_name_raised h)).trans hh'.paths.symm)
  refine List.forall₂_of_length_eq_of_get (by simpa using congrArg List.length hpaths)
    fun i hi hi' => ?_
  change Entry.Raised o.entries[i] o'.entries[i]
  have hpath : o.entries[i].path = o'.entries[i].path := by
    have hat := congrArg (fun ps => ps[i]?) hpaths
    simpa [hi, hi'] using hat
  refine ⟨hpath, rel_details h (hh.details _ (List.getElem_mem hi)) fun y => ?_⟩
  rw [hpath]
  exact hh'.details _ (List.getElem_mem hi') y

end entries

/-! Trees -/

namespace Draft

variable {d d' : Draft}

/-- Two drafts with a root at an earlier and at a later stage. -/
structure Raised (d d' : Draft) : Prop where
  left : d.WellFormed
  right : d'.WellFormed
  rooted : d.rooted
  rooted' : d'.rooted
  entries : List.Forall₂ Entry.Raised d.entries d'.entries

theorem Raised.paths_eq (h : d.Raised d') : d.paths = d'.paths :=
  map_eq_of_forall₂ (fun _ _ he => he.path) h.entries

theorem Raised.size_eq (h : d.Raised d') : d.nodes.size = d'.nodes.size := by
  rw [h.left.size_eq, h.right.size_eq, base_of_rooted h.rooted, base_of_rooted h.rooted',
    h.paths_eq]

theorem Raised.entry (h : d.Raised d') {id : Nat} {n n' : Node} (hn : d.nodes[id]? = some n)
    (hn' : d'.nodes[id]? = some n') : n.entry.Raised n'.entry := by
  cases id with
  | zero =>
    obtain ⟨m, hm, he⟩ := h.left.root h.rooted
    obtain ⟨m', hm', he'⟩ := h.right.root h.rooted'
    obtain rfl := Option.some.inj (hn.symm.trans hm)
    obtain rfl := Option.some.inj (hn'.symm.trans hm')
    rw [he, he']
    exact ⟨rfl, .none⟩
  | succ i =>
    refine rel_of_getElem? (i := i) h.entries ?_ ?_
    · rw [getElem?_entries, base_of_rooted h.rooted, Nat.add_comm, hn]
      rfl
    · rw [getElem?_entries, base_of_rooted h.rooted', Nat.add_comm, hn']
      rfl

/-- Nodes of one number have the same name and the same children. -/
theorem Raised.node (h : d.Raised d') {id : Nat} {n n' : Node} (hn : d.nodes[id]? = some n)
    (hn' : d'.nodes[id]? = some n') : n.name = n'.name ∧ n.children = n'.children := by
  have hpath : n.path = n'.path := (h.entry hn hn').path
  refine ⟨?_, ?_⟩
  · rw [h.left.named id n hn, h.right.named id n' hn', hpath]
  · rw [h.left.children id n hn, h.right.children id n' hn', h.paths_eq, base_of_rooted h.rooted,
      base_of_rooted h.rooted', standsFor, standsFor, root?, root?, h.rooted, h.rooted', hpath]

/-- Trees of one depth rise together: their nodes have the same children, down to the leaves. -/
theorem Raised.subtree (h : d.Raised d') {depth id : Nat} {t t' : Tree}
    (ht : d.subtree? depth id = some t) (ht' : d'.subtree? depth id = some t') : t.Raised t' := by
  induction depth generalizing id t t' with
  | zero => simp [subtree?] at ht
  | succ depth ih =>
    obtain ⟨n, ts, hn, hts, rfl⟩ := subtree?_eq_some_iff.mp ht
    obtain ⟨n', ts', hn', hts', rfl⟩ := subtree?_eq_some_iff.mp ht'
    obtain ⟨hname, hchildren⟩ := h.node hn hn'
    rw [← hchildren] at hts'
    rw [hname]
    exact .node (h.entry hn hn').details (forall₂_of_mapM (fun j u u' hu hu' => ih hu hu') hts hts')

end Draft

/-! Both forms -/

section forms

variable {classes classes' : List ClassStatus}

theorem Tree.raised_of_ofClasses (h : List.Forall₂ ClassStatus.Raised classes classes')
    {t t' : Tree} (ht : Tree.ofClasses classes = .ok t)
    (ht' : Tree.ofClasses classes' = .ok t') : t.Raised t' := by
  obtain ⟨hh, hsub⟩ := subtree_of_ofClasses ht
  obtain ⟨hh', hsub'⟩ := subtree_of_ofClasses ht'
  have hg := grown_treeDraft classes
  have hg' := grown_treeDraft classes'
  have hraised : (treeDraft classes).Raised (treeDraft classes') := by
    refine ⟨hg.wellFormed, hg'.wellFormed, hg.rooted, hg'.rooted, ?_⟩
    rw [hg.entries_eq, hg'.entries_eq]
    exact hh.raised hh' h
  rw [← hraised.size_eq] at hsub'
  exact hraised.subtree hsub hsub'

theorem Graph.raised_of_ofClasses (h : List.Forall₂ ClassStatus.Raised classes classes')
    {dependencies : DependencyMap} {g g' : Graph}
    (hg : Graph.ofClasses classes dependencies = .ok g)
    (hg' : Graph.ofClasses classes' dependencies = .ok g') : g.Raised g' := by
  have hnames := map_name_raised h
  obtain ⟨hh, hgraph⟩ := eq_of_ofClasses hg
  obtain ⟨hh', hgraph'⟩ := eq_of_ofClasses hg'
  refine ⟨?_, ?_⟩
  · rw [nodes_of_ofClasses hg, nodes_of_ofClasses hg', List.forall₂_map_left_iff,
      List.forall₂_map_right_iff]
    refine (forall₂_zipIdx (hh.raised hh' h) 0).imp fun e e' he => ?_
    exact ⟨he.2, congrArg QualifiedName.joined he.1.path, NodeKind.raised_ofDetails he.1.details⟩
  · rw [hgraph, hgraph', edges_graphDraft_of_holds hh, edges_graphDraft_of_holds hh',
      allLeads_congr hnames, referenceEdges_congr_names _ dependencies hnames]

end forms

end DecompTracker.Hierarchy
