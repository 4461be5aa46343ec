import DecompTracker.Proofs.Hierarchy.Dependencies
import DecompTracker.Proofs.Hierarchy.Reference
import DecompTracker.Proofs.Hierarchy.Reporting
import DecompTracker.Proofs.Hierarchy.Runs
import Mathlib.Data.Set.Function

/-! What can be relied on at any time while a draft is built. After every run the index, the nodes, the
child lists and the edges tell one and the same forest, also where calls were given up half-way. -/
namespace DecompTracker.Hierarchy.Draft

variable {d : Draft}

/-- A node other than the root. -/
def Inner (d : Draft) (id : Nat) (n : Node) : Prop := d.nodes[id]? = some n ∧ d.root? ≠ some id

/-- A node with details. -/
def IsClassNode (d : Draft) (id : Nat) : Prop := ∃ n, d.nodes[id]? = some n ∧ n.details.isSome

/-- A draft of the given form whose parts fit together, the names coming from `classes`. -/
structure Coherent (d : Draft) (rooted : Bool) (classes : List ClassStatus) : Prop where
  form : d.root? = if rooted then some 0 else none
  root : rooted → ∃ n, d.nodes[0]? = some n ∧ n.name = rootName ∧ n.details = none
  index : Set.BijOn d.lookup? {written | written ∈ d.index.keys}
    {id? | ∃ id n, id? = some id ∧ d.Inner id n}
  indexed : ∀ id n, d.Inner id n → d.lookup? n.name = some id
  named : ∀ id n, d.Inner id n → n.name = n.path.joined ∧ n.path.IsLeadOf n.origin ∧
    ∃ c ∈ classes, c.name = n.origin
  /-- A node in a scope is listed once, at the node of that scope. -/
  nested : ∀ id n, d.Inner id n → 2 ≤ n.path.length → ∃ pid p, d.Inner pid p ∧
    p.path.segments = n.path.segments.dropLast ∧ p.children.count id = 1 ∧
      ∀ j m, d.nodes[j]? = some m → id ∈ m.children → j = pid
  /-- An outermost node is listed once at the root, and nowhere when there is no root. -/
  outermost : ∀ id n, d.Inner id n → n.path.length = 1 → ∀ j m, d.nodes[j]? = some m →
    m.children.count id = if d.root? = some j then 1 else 0
  children : ∀ id n, d.nodes[id]? = some n → n.children.Pairwise (· < ·) ∧
    ∀ j ∈ n.children, id < j ∧ ∃ m, d.Inner j m
  containment : ∀ s t, ⟨s, t, .contains⟩ ∈ d.edges.toList ↔ ∃ n, d.Inner s n ∧ t ∈ n.children
  increasing : ((d.edges.toList.filter (·.kind = .contains)).map Edge.target).Pairwise (· < ·)
  dependencies : ∀ e ∈ d.edges.toList, e.kind = .dependsOn →
    d.IsClassNode e.source ∧ d.IsClassNode e.target

/-! Nodes other than the root -/

theorem standsFor_of_inner {id : Nat} {n : Node} (h : d.Inner id n) :
    d.standsFor id n = some n.path := if_neg h.2

theorem above_of_inner {id : Nat} {n : Node} (h : d.Inner id n) :
    d.Above (some id) (some n.path) :=
  above_of_standsFor h.1 (standsFor_of_inner h)

theorem base_le_of_inner {id : Nat} {n : Node} (h : d.Inner id n) : d.base ≤ id :=
  (standsFor_eq_some_iff.mp (standsFor_of_inner h)).1

theorem WellFormed.inner_of_above (hd : d.WellFormed) {id : Nat} {p : QualifiedName}
    (h : d.Above (some id) (some p)) : ∃ n, d.Inner id n ∧ n.path = p := by
  obtain ⟨n, hn, hp, -⟩ := hd.find?_of_above h
  have hroot : d.root? ≠ some id := by
    obtain ⟨i, rfl, -⟩ := above_some_some.mp h
    simp [root?_eq_some_iff]
  exact ⟨n, ⟨hn, hroot⟩, hp⟩

theorem Inner.node_eq {id : Nat} {n m : Node} (h : d.Inner id n) (h' : d.Inner id m) : n = m :=
  Option.some.inj (h.1.symm.trans h'.1)

/-! The index -/

/-- A written form is looked up exactly at the node with this name. -/
theorem WellFormed.lookup?_eq_some_iff (hd : d.WellFormed) {written : String} {id : Nat} :
    d.lookup? written = some id ↔ ∃ n, d.Inner id n ∧ n.name = written := by
  rw [hd.index]
  constructor
  · intro h
    obtain ⟨i, p, rfl, hp, rfl⟩ := h
    obtain ⟨n, hn, rfl⟩ := hd.inner_of_above (above_some_some.mpr ⟨i, rfl, hp⟩)
    exact ⟨n, hn, hd.named _ n hn.1⟩
  · intro h
    obtain ⟨n, hn, rfl⟩ := h
    obtain ⟨i, hid, hp⟩ := above_some_some.mp (above_of_inner hn)
    exact ⟨i, n.path, hid, hp, (hd.named id n hn.1).symm⟩

theorem WellFormed.bijOn_lookup? (hd : d.WellFormed) :
    Set.BijOn d.lookup? {written | written ∈ d.index.keys}
      {id? | ∃ id n, id? = some id ∧ d.Inner id n} := by
  refine ⟨?_, ?_, ?_⟩
  · intro written hw
    obtain ⟨id, hid⟩ := SortedMap.mem_keys_iff.mp hw
    obtain ⟨n, hn, -⟩ := hd.lookup?_eq_some_iff.mp hid
    exact ⟨id, n, hid, hn⟩
  · intro written hw written' _ heq
    obtain ⟨id, hid⟩ := SortedMap.mem_keys_iff.mp hw
    obtain ⟨n, hn, rfl⟩ := hd.lookup?_eq_some_iff.mp hid
    obtain ⟨n', hn', rfl⟩ := hd.lookup?_eq_some_iff.mp (heq.symm.trans hid)
    rw [hn.node_eq hn']
  · intro id? hid
    obtain ⟨id, n, rfl, hn⟩ := hid
    have hl := hd.lookup?_eq_some_iff.mpr ⟨n, hn, rfl⟩
    exact ⟨n.name, SortedMap.mem_keys_iff.mpr ⟨id, hl⟩, hl⟩

/-! Child lists -/

theorem WellFormed.mem_children_iff (hd : d.WellFormed) {j : Nat} {m : Node}
    (hm : d.nodes[j]? = some m) {id : Nat} :
    id ∈ m.children ↔ ∃ n, d.Inner id n ∧ n.path.scope? = d.standsFor j m := by
  rw [hd.children j m hm, mem_childIds_iff_above]
  constructor
  · intro h
    obtain ⟨p, hp, hs⟩ := h
    obtain ⟨n, hn, rfl⟩ := hd.inner_of_above hp
    exact ⟨n, hn, hs⟩
  · intro h
    obtain ⟨n, hn, hs⟩ := h
    exact ⟨n.path, above_of_inner hn, hs⟩

theorem WellFormed.pairwise_children (hd : d.WellFormed) {j : Nat} {m : Node}
    (hm : d.nodes[j]? = some m) : m.children.Pairwise (· < ·) := by
  rw [hd.children j m hm]
  exact pairwise_childIds _

/-- A node is listed once where its scope stands, and nowhere else. -/
theorem WellFormed.count_children (hd : d.WellFormed) {id : Nat} {n : Node} (hn : d.Inner id n)
    {j : Nat} {m : Node} (hm : d.nodes[j]? = some m) :
    m.children.count id = if n.path.scope? = d.standsFor j m then 1 else 0 := by
  have hnodup : m.children.Nodup := (hd.pairwise_children hm).imp Nat.ne_of_lt
  have hmem : id ∈ m.children ↔ n.path.scope? = d.standsFor j m := by
    rw [hd.mem_children_iff hm]
    constructor
    · intro h
      obtain ⟨n', hn', hs⟩ := h
      rwa [hn.node_eq hn']
    · intro h
      exact ⟨n, hn, h⟩
  rw [hnodup.count]
  simp only [hmem]

theorem WellFormed.exists_parent (hd : d.WellFormed) {id : Nat} {n : Node} (hn : d.Inner id n)
    (hlen : 2 ≤ n.path.length) : ∃ pid p, d.Inner pid p ∧
      p.path.segments = n.path.segments.dropLast ∧ p.children.count id = 1 ∧
        ∀ j m, d.nodes[j]? = some m → id ∈ m.children → j = pid := by
  obtain ⟨s, hs⟩ := Option.isSome_iff_exists.mp (QualifiedName.isSome_scope?_iff.mpr hlen)
  obtain ⟨pid, hpid⟩ := exists_above (hd.proper.scope_mem (above_of_inner hn).mem_paths hs)
  obtain ⟨p, hp, rfl⟩ := hd.inner_of_above hpid
  refine ⟨pid, p, hp, ?_, ?_, fun j m hm hj => ?_⟩
  · obtain ⟨short, hshort⟩ := QualifiedName.scope?_eq_some_iff.mp hs
    rw [hshort, List.dropLast_concat]
  · rw [hd.count_children hn hp.1, standsFor_of_inner hp, if_pos hs]
  · have hcount := hd.count_children hn hm
    have hstands : d.standsFor j m = some p.path := by
      by_contra hne
      rw [hs, if_neg (Ne.symm hne)] at hcount
      exact List.count_eq_zero.mp hcount hj
    exact hd.id_eq_of_above (above_of_standsFor hm hstands) hpid

theorem WellFormed.count_outermost (hd : d.WellFormed) {id : Nat} {n : Node} (hn : d.Inner id n)
    (hlen : n.path.length = 1) {j : Nat} {m : Node} (hm : d.nodes[j]? = some m) :
    m.children.count id = if d.root? = some j then 1 else 0 := by
  rw [hd.count_children hn hm, QualifiedName.scope?_eq_none_iff.mpr hlen]
  simp only [eq_comm (a := none), standsFor_eq_none_iff]

/-! Containment edges -/

theorem WellFormed.contains_mem_iff (hd : d.WellFormed) (s t : Nat) :
    ⟨s, t, .contains⟩ ∈ d.edges.toList ↔ ∃ n, d.Inner s n ∧ t ∈ n.children := by
  have hmem : (⟨s, t, .contains⟩ : Edge) ∈ d.edges.toList ↔
      (⟨s, t, .contains⟩ : Edge) ∈ containments d.base d.paths := by
    simp [← hd.edges]
  have hclosed : ∀ q ∈ d.paths, ∀ s, q.scope? = some s → s ∈ d.paths := fun q hq s hs =>
    hd.proper.scope_mem hq hs
  rw [hmem]
  constructor
  · intro h
    obtain ⟨i, j, p, q, hs, ht, -, hi, hj, hscope⟩ :=
      ends_of_mem_containments hd.proper.scopes h
    obtain ⟨n, hn, rfl⟩ := hd.inner_of_above (above_some_some.mpr ⟨i, hs, hi⟩)
    obtain ⟨m, hm, rfl⟩ := hd.inner_of_above (above_some_some.mpr ⟨j, ht, hj⟩)
    exact ⟨n, hn, (hd.mem_children_iff hn.1).mpr
      ⟨m, hm, hscope.trans (standsFor_of_inner hn).symm⟩⟩
  · intro h
    obtain ⟨n, hn, ht⟩ := h
    obtain ⟨i, rfl, hi⟩ := above_some_some.mp (above_of_inner hn)
    rw [hd.children _ n hn.1, standsFor_of_inner hn,
      ← map_target_filter_source hd.proper.nodup_paths hclosed hi] at ht
    obtain ⟨e, he, rfl⟩ := List.mem_map.mp ht
    obtain ⟨he, hsource⟩ := List.mem_filter.mp he
    obtain ⟨p, q, -, -, heq⟩ := mem_containments.mp he
    have hkind : e.kind = .contains := congrArg Edge.kind heq
    have hsource : e.source = d.base + i := by simpa using hsource
    rw [← hsource, ← hkind]
    exact he

theorem WellFormed.pairwise_targets (hd : d.WellFormed) :
    ((d.edges.toList.filter (·.kind = .contains)).map Edge.target).Pairwise (· < ·) := by
  rw [hd.edges, map_target_containments]
  exact pairwise_numbers _

/-! Dependency edges -/

/-- Dependencies join nodes of classes. -/
def JoinsClasses (d : Draft) : Prop :=
  ∀ e ∈ d.edges.toList, e.kind = .dependsOn → d.IsClassNode e.source ∧ d.IsClassNode e.target

theorem Keeps.isClassNode {d' : Draft} (h : d.Keeps d') {id : Nat} (hid : d.IsClassNode id) :
    d'.IsClassNode id := by
  obtain ⟨n, hn, hsome⟩ := hid
  obtain ⟨x, hx⟩ := Option.isSome_iff_exists.mp hsome
  obtain ⟨n', hn', hb⟩ := h.nodes id n hn
  exact ⟨n', hn', by rw [hb.details x hx, Option.isSome_some]⟩

theorem isClassNode_of_classNode? {name : QualifiedName} {id : Nat}
    (h : d.classNode? name = some id) : d.IsClassNode id := by
  obtain ⟨n, hn, -, hsome⟩ := exists_node_of_classNode? h
  exact ⟨n, hn, hsome⟩

theorem JoinsClasses.apply (h : d.JoinsClasses) (call : Call) : (d.apply call).JoinsClasses := by
  intro e he hk
  cases call with
  | addClass c =>
    have hkeeps := d.keeps_addClass c
    obtain ⟨new, hedges, hnew⟩ := hkeeps.edges
    rw [Draft.apply, hedges] at he
    rcases List.mem_append.mp he with he | he
    · exact (h e he hk).imp hkeeps.isClassNode hkeeps.isClassNode
    · simp [hnew e he] at hk
  | addDependencies name targets =>
    obtain ⟨es, hes, heq⟩ := d.addDependencies_eq name targets
    rw [Draft.apply, heq] at he ⊢
    rcases List.mem_append.mp (by simpa using he : e ∈ d.edges.toList ++ es) with he | he
    · exact h e he hk
    · obtain ⟨-, hsource, target, -, htarget⟩ := hes e he
      exact ⟨isClassNode_of_classNode? hsource, isClassNode_of_classNode? htarget⟩

theorem joinsClasses_run (rooted : Bool) (calls : List Call) :
    ((start rooted).run calls).JoinsClasses := by
  induction calls using List.reverseRecOn with
  | nil =>
    have hnone : (start rooted).edges = #[] := by cases rooted <;> rfl
    intro e he
    simp [run, hnone] at he
  | append_singleton calls call ih =>
    rw [run_concat]
    exact ih.apply call

/-! The whole draft -/

theorem WellFormed.root_eq (hd : d.WellFormed) (hr : d.rooted) :
    ∃ n, d.nodes[0]? = some n ∧ n.name = rootName ∧ n.details = none := by
  obtain ⟨n, hn, he⟩ := hd.root hr
  refine ⟨n, hn, ?_, congrArg Entry.details he⟩
  have hpath : n.path = .parse rootName := congrArg Entry.path he
  rw [hd.named 0 n hn, hpath, QualifiedName.joined_parse]

theorem WellFormed.coherent (hd : d.WellFormed) {classes : List ClassStatus}
    (ht : d.outline.Traced classes) (hj : d.JoinsClasses) : d.Coherent d.rooted classes where
  form := rfl
  root hr := hd.root_eq hr
  index := hd.bijOn_lookup?
  indexed _ n hn := hd.lookup?_eq_some_iff.mpr ⟨n, hn, rfl⟩
  named id n hn := ⟨hd.named id n hn.1, ht.origin _ (entry_mem hn.1 (base_le_of_inner hn))⟩
  nested _ _ hn hlen := hd.exists_parent hn hlen
  outermost _ _ hn hlen _ _ hm := hd.count_outermost hn hlen hm
  children id n hn := by
    refine ⟨hd.pairwise_children hn, fun j hj => ⟨(hd.lt_of_mem_children hn hj).1, ?_⟩⟩
    obtain ⟨m, hm, -⟩ := (hd.mem_children_iff hn).mp hj
    exact ⟨m, hm⟩
  containment := hd.contains_mem_iff
  increasing := hd.pairwise_targets
  dependencies := hj

/-- Every run of calls, whichever of them conflict, leaves a coherent draft. -/
theorem run_coherent (rooted : Bool) (calls : List Call) :
    ((start rooted).run calls).Coherent rooted (addedClasses calls) := by
  have hg := grown_run rooted calls
  have hform : ((start rooted).run calls).rooted = rooted := hg.rooted.trans (rooted_start rooted)
  have hcoherent := hg.wellFormed.coherent (hg.outline ▸ Outline.traced_ofClasses _)
    (joinsClasses_run rooted calls)
  rwa [hform] at hcoherent

end DecompTracker.Hierarchy.Draft
