import DecompTracker.Proofs.Hierarchy.Genuine
import DecompTracker.Proofs.Hierarchy.Subtree
import Mathlib.Logic.Relation

/-! How a tree unfolds from a node of a draft when nothing bounds its depth. A cycle would have no
unfolding, and neither would a child that does not exist. Children come after their parents in every
draft that calls lead to, so each node unfolds, within a depth of the number of nodes, and no node is
met twice on the way. -/
namespace DecompTracker.Hierarchy.Draft

variable {d : Draft}

/-- A node with the trees that unfold from its children, in their order. -/
inductive Unfolds (d : Draft) : NodeId → Tree → Prop where
  | node {id : NodeId} {n : Node} {children : List Tree} (found : d.nodes[id]? = some n)
      (ids : children.map Tree.id = n.children) (below : ∀ t ∈ children, d.Unfolds t.id t) :
      d.Unfolds id (.node id n.name n.details children)

/-- Unfolding a node goes on with its children. -/
def LeadsTo (d : Draft) (id child : NodeId) : Prop :=
  ∃ n, d.nodes[id]? = some n ∧ child ∈ n.children

/-! Unfolding and bounded unfolding -/

theorem unfolds_of_subtree {depth id : Nat} {t : Tree} (h : d.subtree? depth id = some t) :
    d.Unfolds id t := by
  induction depth generalizing id t with
  | zero => simp [subtree?] at h
  | succ depth ih =>
    obtain ⟨n, children, hn, hchildren, rfl⟩ := subtree?_eq_some_iff.mp h
    refine .node hn (map_id_of_mapM hchildren) fun t ht => ?_
    obtain ⟨j, -, hj⟩ := exists_of_mem_mapM hchildren t ht
    rw [id_of_subtree hj]
    exact ih hj

theorem Unfolds.unique {id : NodeId} {t u : Tree} (ht : d.Unfolds id t) (hu : d.Unfolds id u) :
    t = u := by
  induction ht generalizing u with
  | @node id n children found ids below ih =>
    cases hu with
    | @node _ n' children' found' ids' below' =>
      obtain rfl := Option.some.inj (found.symm.trans found')
      have hlen : children.length = children'.length := by
        simpa using congrArg List.length (ids.trans ids'.symm)
      have hchildren : children = children' := by
        refine List.ext_getElem hlen fun i hi hi' => ?_
        have hid : (children[i]).id = (children'[i]).id := by
          have := congrArg (fun js => js[i]?) (ids.trans ids'.symm)
          simpa [hi, hi'] using this
        refine ih _ (List.getElem_mem hi) ?_
        rw [hid]
        exact below' _ (List.getElem_mem hi')
      rw [hchildren]

/-- Every node of an unfolding shows what unfolds from it. -/
theorem Unfolds.of_mem_nodes {id : NodeId} {t : Tree} (h : d.Unfolds id t) :
    ∀ m ∈ t.nodes, d.Unfolds m.id m := by
  induction h with
  | @node id n children found ids below ih =>
    intro m hm
    rw [Tree.nodes_node] at hm
    rcases List.mem_cons.mp hm with rfl | hm
    · exact .node found ids below
    · obtain ⟨t, ht, hmt⟩ := List.mem_flatMap.mp hm
      exact ih t ht m hmt

/-- Unfolding visits exactly what it is led to. -/
theorem Unfolds.mem_ids_iff {id : NodeId} {t : Tree} (h : d.Unfolds id t) (j : NodeId) :
    j ∈ t.ids ↔ Relation.ReflTransGen d.LeadsTo id j := by
  induction h with
  | @node id n children found ids below ih =>
    rw [Tree.ids_node, List.mem_cons, List.mem_flatMap, Relation.ReflTransGen.cases_head_iff]
    refine or_congr eq_comm ?_
    constructor
    · intro hj
      obtain ⟨t, ht, hj⟩ := hj
      exact ⟨t.id, ⟨n, found, ids ▸ List.mem_map_of_mem ht⟩, (ih t ht).mp hj⟩
    · intro hj
      obtain ⟨child, ⟨n', found', hchild⟩, hj⟩ := hj
      obtain rfl := Option.some.inj (found.symm.trans found')
      rw [← ids] at hchild
      obtain ⟨t, ht, rfl⟩ := List.mem_map.mp hchild
      exact ⟨t, ht, (ih t ht).mpr hj⟩

/-! Unfolding in well-formed drafts -/

theorem WellFormed.lt_of_leadsTo (hd : d.WellFormed) {id child : NodeId}
    (h : d.LeadsTo id child) : id < child ∧ child < d.nodes.size := by
  obtain ⟨n, hn, hchild⟩ := h
  exact hd.lt_of_mem_children hn hchild

/-- Each step goes on to a larger number, and these are bounded. -/
theorem WellFormed.wellFounded_leadsTo (hd : d.WellFormed) :
    WellFounded fun child id => d.LeadsTo id child := by
  refine Subrelation.wf (fun {child id} h => ?_)
    (InvImage.wf (fun id => d.nodes.size - id) Nat.lt_wfRel.wf)
  have hlt := hd.lt_of_leadsTo h
  exact Nat.sub_lt_sub_left (hlt.1.trans hlt.2) hlt.1

theorem WellFormed.lt_of_reaches (hd : d.WellFormed) {id j : NodeId} (hid : id < d.nodes.size)
    (h : Relation.ReflTransGen d.LeadsTo id j) : j < d.nodes.size := by
  cases h with
  | refl => exact hid
  | tail _ hlast => exact (hd.lt_of_leadsTo hlast).2

/-- A depth of the number of nodes is enough, so a larger one gives the same tree. -/
theorem WellFormed.exists_unfolds (hd : d.WellFormed) {id : NodeId} (hid : id < d.nodes.size) :
    ∃ t, d.Unfolds id t ∧ ∀ depth, d.nodes.size ≤ depth → d.subtree? depth id = some t := by
  have hexists (depth : Nat) (hdepth : d.nodes.size ≤ depth) :
      ∃ t, d.subtree? depth id = some t := hd.exists_subtree hid (by omega)
  obtain ⟨t, ht⟩ := hexists d.nodes.size le_rfl
  refine ⟨t, unfolds_of_subtree ht, fun depth hdepth => ?_⟩
  obtain ⟨u, hu⟩ := hexists depth hdepth
  rw [hu, (unfolds_of_subtree ht).unique (unfolds_of_subtree hu)]

theorem Unfolds.lt_size {id : NodeId} {t : Tree} (h : d.Unfolds id t) : id < d.nodes.size := by
  cases h with
  | node found => exact (Array.getElem?_eq_some_iff.mp found).1

theorem WellFormed.subtree?_of_unfolds (hd : d.WellFormed) {id : NodeId} {t : Tree}
    (h : d.Unfolds id t) : d.subtree? d.nodes.size id = some t := by
  obtain ⟨u, hu, hbounded⟩ := hd.exists_unfolds h.lt_size
  rw [h.unique hu]
  exact hbounded d.nodes.size le_rfl

theorem eq_zero_of_root? {id : NodeId} (h : d.root? = some id) : d.rooted = true ∧ id = 0 := by
  cases hr : d.rooted with
  | false => simp [root?, hr] at h
  | true => exact ⟨rfl, by simpa [root?, hr] using h.symm⟩

theorem WellFormed.nodup_ids (hd : d.WellFormed) {depth id : Nat} {t : Tree}
    (h : d.subtree? depth id = some t) (hid : id < d.nodes.size) : t.ids.Nodup := by
  by_cases hroot : d.root? = some id
  · obtain ⟨hr, rfl⟩ := eq_zero_of_root? hroot
    exact (hd.ids_perm hr h).nodup_iff.mpr List.nodup_range
  · have hbase : d.base ≤ id := by
      rw [root?_eq_some_iff] at hroot
      omega
    obtain ⟨p, hp⟩ := (above_iff_base_le hd.toLinked id).mpr ⟨hbase, hid⟩
    exact (hd.spans hp h).nodup

/-- How unfolding goes from a node to the tree `t`, which has one node for each visit. -/
structure UnfoldsOnce (d : Draft) (id : NodeId) (t : Tree) : Prop where
  unfolds : d.Unfolds id t
  ends : Acc (fun child id => d.LeadsTo id child) id
  /-- Every depth bound that is not too small gives the tree that unfolds without one. -/
  bounded : ∀ depth, d.nodeCount ≤ depth → d.subtree? depth id = some t
  visited : ∀ j, j ∈ t.ids ↔ Relation.ReflTransGen d.LeadsTo id j
  inRange : ∀ j, Relation.ReflTransGen d.LeadsTo id j → j < d.nodeCount
  once : t.ids.Nodup
  whole : d.root? = some id → t.ids.Perm (List.range d.nodeCount) ∧ t.count = d.nodeCount ∧
    d.toTree = d.checked t

theorem WellFormed.exists_unfoldsOnce (hd : d.WellFormed) {id : NodeId}
    (hid : id < d.nodes.size) : ∃ t, d.UnfoldsOnce id t := by
  obtain ⟨t, hunfolds, hbounded⟩ := hd.exists_unfolds hid
  have hsub := hbounded d.nodes.size le_rfl
  refine ⟨t, hunfolds, hd.wellFounded_leadsTo.apply id, hbounded, hunfolds.mem_ids_iff,
    fun _ hj => hd.lt_of_reaches hid hj, hd.nodup_ids hsub hid, fun hroot => ?_⟩
  obtain ⟨hr, rfl⟩ := eq_zero_of_root? hroot
  have hperm := hd.ids_perm hr hsub
  refine ⟨hperm, ?_, ?_⟩
  · have hlen := hperm.length_eq
    rwa [Tree.ids, List.length_map, List.length_range] at hlen
  · rw [toTree, hroot, Option.bind_some, hsub, Option.getD_some]

/-- Whatever calls were made, conflicting ones or not, unfolding a node ends and visits no node
twice, and from the root it visits all of them. -/
theorem run_unfoldsOnce (rooted : Bool) (calls : List Call) {id : NodeId}
    (hid : id < ((start rooted).run calls).nodeCount) :
    ∃ t, ((start rooted).run calls).UnfoldsOnce id t :=
  (grown_run rooted calls).wellFormed.exists_unfoldsOnce hid

theorem run_unfoldsOnce_tangledCalls : 0 < ((start true).run tangledCalls).nodeCount ∧
    ∃ t, ((start true).run tangledCalls).UnfoldsOnce 0 t := by
  have h : 0 < ((start true).run tangledCalls).nodeCount := by decide
  exact ⟨h, run_unfoldsOnce true tangledCalls h⟩

end DecompTracker.Hierarchy.Draft
