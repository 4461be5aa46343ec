import DecompTracker.Proofs.Hierarchy.Addition

/-! What the addition of a class leaves as it was. Nodes keep their number, name, path and origin, and
their details once they have some; children and edges are only added at the end, and every new edge
tells containment. -/
namespace DecompTracker.Hierarchy

/-- A node at a later time. -/
structure Node.Becomes (n n' : Node) : Prop where
  name : n'.name = n.name
  path : n'.path = n.path
  origin : n'.origin = n.origin
  details : ∀ x, n.details = some x → n'.details = some x
  children : n.children <+: n'.children

theorem Node.Becomes.refl (n : Node) : n.Becomes n :=
  ⟨rfl, rfl, rfl, fun _ h => h, List.prefix_rfl⟩

theorem Node.Becomes.trans {n n' n'' : Node} (h : n.Becomes n') (h' : n'.Becomes n'') :
    n.Becomes n'' where
  name := h'.name.trans h.name
  path := h'.path.trans h.path
  origin := h'.origin.trans h.origin
  details x hx := h'.details x (h.details x hx)
  children := h.children.trans h'.children

namespace Draft

variable {d d' : Draft}

structure Keeps (d d' : Draft) : Prop where
  nodes : ∀ (id : Nat) (n : Node), d.nodes[id]? = some n →
    ∃ n', d'.nodes[id]? = some n' ∧ n.Becomes n'
  edges : ∃ new : List Edge, d'.edges.toList = d.edges.toList ++ new ∧
    ∀ e ∈ new, e.kind = .contains

theorem Keeps.refl (d : Draft) : d.Keeps d :=
  ⟨fun _ n hn => ⟨n, hn, .refl n⟩, [], by simp, by simp⟩

theorem Keeps.trans {d'' : Draft} (h : d.Keeps d') (h' : d'.Keeps d'') : d.Keeps d'' := by
  refine ⟨fun id n hn => ?_, ?_⟩
  · obtain ⟨n', hn', hb⟩ := h.nodes id n hn
    obtain ⟨n'', hn'', hb'⟩ := h'.nodes id n' hn'
    exact ⟨n'', hn'', hb.trans hb'⟩
  · obtain ⟨new, he, hk⟩ := h.edges
    obtain ⟨new', he', hk'⟩ := h'.edges
    exact ⟨new ++ new', by rw [he', he, List.append_assoc],
      List.forall_mem_append.mpr ⟨hk, hk'⟩⟩

theorem Keeps.becomes (h : d.Keeps d') {id : Nat} {n n' : Node} (hn : d.nodes[id]? = some n)
    (hn' : d'.nodes[id]? = some n') : n.Becomes n' := by
  obtain ⟨m, hm, hb⟩ := h.nodes id n hn
  rwa [Option.some.inj (hn'.symm.trans hm)]

theorem keeps_addConflict (d : Draft) (x : Conflict) : d.Keeps (d.addConflict x) :=
  ⟨(Keeps.refl d).nodes, (Keeps.refl d).edges⟩

theorem keeps_create (d : Draft) (parent? : Option Nat) (origin path : QualifiedName) :
    d.Keeps (d.create parent? origin path) where
  nodes id n hn := by
    have hlt := (Array.getElem?_eq_some_iff.mp hn).1
    rw [getElem?_create, Array.getElem?_push, if_neg hlt.ne, hn, Option.map_some]
    refine ⟨_, rfl, ?_⟩
    split
    · exact ⟨rfl, rfl, rfl, fun _ h => h, List.prefix_append _ _⟩
    · exact .refl n
  edges := by
    refine ⟨_, edges_create d parent? origin path, fun e he => ?_⟩
    obtain ⟨parent, -, rfl⟩ := List.mem_map.mp he
    rfl

theorem keeps_descend (d : Draft) (name : QualifiedName) (parent? : Option Nat)
    (ps : List QualifiedName) : d.Keeps (d.descend name parent? ps).1 := by
  induction ps generalizing d parent? with
  | nil => exact .refl d
  | cons p ps ih =>
    rw [descend]
    split
    · split
      · exact ih d _
      · exact keeps_addConflict d _
    · exact (keeps_create d parent? name p).trans (ih _ _)

/-- Only a node without details gets some. -/
theorem keeps_setDetails {id : Nat} (details : ClassDetails)
    (h : d.nodes[id]?.bind Node.details = none) : d.Keeps (d.setDetails id details) where
  nodes j n hn := by
    rw [getElem?_setDetails, hn, Option.map_some]
    refine ⟨_, rfl, ?_⟩
    split
    · rename_i hj
      rw [hj, hn, Option.bind_some] at h
      exact ⟨rfl, rfl, rfl, by simp [h], List.prefix_rfl⟩
    · exact .refl n
  edges := (Keeps.refl d).edges

theorem keeps_describe (d : Draft) (id : Nat) (c : ClassStatus) : d.Keeps (d.describe id c) := by
  unfold describe
  split
  · exact keeps_setDetails c.toClassDetails ‹_›
  · split
    · exact .refl d
    · exact keeps_addConflict d _

theorem keeps_addClass (d : Draft) (c : ClassStatus) : d.Keeps (d.addClass c) := by
  have hdesc := d.keeps_descend c.name d.root? c.name.leads
  unfold addClass
  split <;> rename_i d' _ hr <;> rw [hr] at hdesc
  · exact hdesc.trans (keeps_describe d' _ c)
  · exact hdesc

theorem keeps_addClasses (d : Draft) (classes : List ClassStatus) :
    d.Keeps (d.addClasses classes) := by
  induction classes generalizing d with
  | nil => exact .refl d
  | cons c classes ih => exact (d.keeps_addClass c).trans (ih _)

end Draft

end DecompTracker.Hierarchy
