import DecompTracker.Proofs.Hierarchy.Linked
import Mathlib.Data.List.Perm.Basic

/-! Trees made from drafts. The tree under a node shows each node whose path leads through that one,
once, with the children it has in the draft; under the root these are all nodes. -/
namespace DecompTracker.Hierarchy

variable {α β : Type} {f : α → Option β}

theorem mapM_cons_eq_some_iff {a : α} {as : List α} {bs : List β} :
    (a :: as).mapM f = some bs ↔
      ∃ b rest, f a = some b ∧ as.mapM f = some rest ∧ b :: rest = bs := by
  simp [List.mapM_cons, Option.bind_eq_some_iff]

theorem exists_mapM {as : List α} (h : ∀ a ∈ as, ∃ b, f a = some b) :
    ∃ bs, as.mapM f = some bs := by
  induction as with
  | nil => exact ⟨[], rfl⟩
  | cons a as ih =>
    obtain ⟨⟨b, hb⟩, has⟩ := List.forall_mem_cons.mp h
    obtain ⟨bs, hbs⟩ := ih has
    exact ⟨b :: bs, mapM_cons_eq_some_iff.mpr ⟨b, bs, hb, hbs, rfl⟩⟩

theorem exists_of_mem_mapM {as : List α} {bs : List β} (h : as.mapM f = some bs) :
    ∀ b ∈ bs, ∃ a ∈ as, f a = some b := by
  induction as generalizing bs with
  | nil => simp_all
  | cons a as ih =>
    obtain ⟨b, rest, hb, hrest, rfl⟩ := mapM_cons_eq_some_iff.mp h
    refine List.forall_mem_cons.mpr ⟨⟨a, List.mem_cons_self, hb⟩, fun c hc => ?_⟩
    obtain ⟨a', ha', hf⟩ := ih hrest c hc
    exact ⟨a', List.mem_cons_of_mem _ ha', hf⟩

namespace Tree

def ids (t : Tree) : List Nat := t.nodes.map id

theorem nodesOf_eq_flatMap (ts : List Tree) : nodesOf ts = ts.flatMap nodes := by
  induction ts with
  | nil => rw [nodesOf, List.flatMap_nil]
  | cons t ts ih => rw [nodesOf, ih, List.flatMap_cons]

theorem nodes_node (id : Nat) (name : String) (details : Option ClassDetails)
    (children : List Tree) :
    (node id name details children).nodes =
      node id name details children :: children.flatMap nodes := by
  rw [nodes, nodesOf_eq_flatMap]

theorem self_mem_nodes (t : Tree) : t ∈ t.nodes := by
  cases t
  simp [nodes_node]

theorem ids_node (id : Nat) (name : String) (details : Option ClassDetails)
    (children : List Tree) :
    (node id name details children).ids = id :: children.flatMap ids := by
  simp only [ids, nodes_node, List.map_cons, List.map_flatMap]
  rfl

end Tree

namespace Draft

variable {d : Draft}

theorem subtree?_eq_some_iff {depth id : Nat} {t : Tree} :
    d.subtree? (depth + 1) id = some t ↔ ∃ n children, d.nodes[id]? = some n ∧
      n.children.mapM (d.subtree? depth) = some children ∧
        .node id n.name n.details children = t := by
  simp [subtree?, Option.bind_eq_some_iff]

theorem id_of_subtree {depth id : Nat} {t : Tree} (h : d.subtree? depth id = some t) :
    t.id = id := by
  cases depth with
  | zero => simp [subtree?] at h
  | succ depth =>
    obtain ⟨n, children, -, -, rfl⟩ := subtree?_eq_some_iff.mp h
    rfl

/-! What the nodes of a tree show -/

/-- A tree node shows a node of the draft under its number. -/
structure Shows (d : Draft) (t : Tree) (n : Node) : Prop where
  found : d.nodes[t.id]? = some n
  name : t.name = n.name
  details : t.details = n.details
  children : t.children.map Tree.id = n.children

theorem map_id_of_mapM {depth : Nat} {js : List Nat} {ts : List Tree}
    (h : js.mapM (d.subtree? depth) = some ts) : ts.map Tree.id = js := by
  induction js generalizing ts with
  | nil => simp_all
  | cons j js ih =>
    obtain ⟨t, rest, ht, hrest, rfl⟩ := mapM_cons_eq_some_iff.mp h
    rw [List.map_cons, id_of_subtree ht, ih hrest]

theorem exists_shows {depth id : Nat} {t : Tree} (h : d.subtree? depth id = some t) :
    ∀ m ∈ t.nodes, ∃ n, d.Shows m n := by
  induction depth generalizing id t with
  | zero => simp [subtree?] at h
  | succ depth ih =>
    obtain ⟨n, ts, hn, hts, rfl⟩ := subtree?_eq_some_iff.mp h
    intro m hm
    rw [Tree.nodes_node] at hm
    rcases List.mem_cons.mp hm with rfl | hm
    · exact ⟨n, hn, rfl, rfl, map_id_of_mapM hts⟩
    · obtain ⟨t, ht, hmt⟩ := List.mem_flatMap.mp hm
      obtain ⟨j, -, hj⟩ := exists_of_mem_mapM hts t ht
      exact ih hj m hmt

/-! Which nodes a tree has -/

theorem mem_childIds_iff_above {j : Nat} {s? : Option QualifiedName} :
    j ∈ childIds d.base d.paths s? ↔ ∃ p, d.Above (some j) (some p) ∧ p.scope? = s? := by
  simp only [mem_childIds, above_some_some]
  constructor
  · rintro ⟨i, p, hj, hp, hs⟩
    exact ⟨p, ⟨i, hj, hp⟩, hs⟩
  · rintro ⟨p, ⟨i, hj, hp⟩, hs⟩
    exact ⟨i, p, hj, hp, hs⟩

/-- The nodes of a tree are those standing for the paths that lead through `p`. -/
structure Spans (d : Draft) (t : Tree) (p : QualifiedName) : Prop where
  nodup : t.ids.Nodup
  mem_iff : ∀ j, j ∈ t.ids ↔ ∃ q, d.Above (some j) (some q) ∧ p.IsLeadOf q

/-- The nodes of some trees are those standing for the paths that lie in a scope. -/
structure SpansBelow (d : Draft) (ts : List Tree) (s? : Option QualifiedName) : Prop where
  nodup : (ts.flatMap Tree.ids).Nodup
  mem_iff : ∀ j, j ∈ ts.flatMap Tree.ids ↔ ∃ q, d.Above (some j) (some q) ∧ q.LiesIn s?

section children

variable {depth : Nat} {s? : Option QualifiedName} {ts : List Tree}

theorem exists_spans (h : (childIds d.base d.paths s?).mapM (d.subtree? depth) = some ts)
    (hspans : ∀ j p t, d.Above (some j) (some p) → d.subtree? depth j = some t → d.Spans t p) :
    ∀ t ∈ ts, ∃ p, d.Above (some t.id) (some p) ∧ p.scope? = s? ∧ d.Spans t p := by
  intro t ht
  obtain ⟨j, hj, hjt⟩ := exists_of_mem_mapM h t ht
  obtain ⟨p, hp, hs⟩ := mem_childIds_iff_above.mp hj
  exact ⟨p, (id_of_subtree hjt).symm ▸ hp, hs, hspans j p t hp hjt⟩

/-- No path leads through two different names that lie directly in one scope. -/
theorem WellFormed.disjoint_ids (hd : d.WellFormed) {t u : Tree} (hid : t.id ≠ u.id)
    {p q : QualifiedName} (hp : d.Above (some t.id) (some p)) (hq : d.Above (some u.id) (some q))
    (hpq : p.scope? = q.scope?) (ht : d.Spans t p) (hu : d.Spans u q) :
    List.Disjoint t.ids u.ids := by
  intro j hjt hju
  obtain ⟨r, hr, hpr⟩ := (ht.mem_iff j).mp hjt
  obtain ⟨r', hr', hqr⟩ := (hu.mem_iff j).mp hju
  obtain rfl := path_eq_of_above hr hr'
  obtain rfl := hpr.eq_of_scope?_eq hqr hpq
  exact hid (hd.id_eq_of_above hp hq)

/-- The trees under all that lies directly in a scope span what lies in it at any depth. -/
theorem WellFormed.spansBelow (hd : d.WellFormed)
    (h : (childIds d.base d.paths s?).mapM (d.subtree? depth) = some ts)
    (hspans : ∀ j p t, d.Above (some j) (some p) → d.subtree? depth j = some t → d.Spans t p) :
    d.SpansBelow ts s? := by
  have hids := map_id_of_mapM h
  have hmem := exists_spans h hspans
  refine ⟨List.nodup_flatMap.mpr ⟨fun t ht => ?_, ?_⟩, fun j => ?_⟩
  · obtain ⟨p, -, -, hspan⟩ := hmem t ht
    exact hspan.nodup
  · have hne : ts.Pairwise fun t u => t.id ≠ u.id := by
      refine List.pairwise_map.mp (hids ▸ ?_)
      exact (pairwise_childIds s?).imp Nat.ne_of_lt
    refine hne.imp_of_mem fun {t u} ht hu hid => ?_
    obtain ⟨p, hp, hps, hspan⟩ := hmem t ht
    obtain ⟨q, hq, hqs, hspan'⟩ := hmem u hu
    exact hd.disjoint_ids hid hp hq (hps.trans hqs.symm) hspan hspan'
  · rw [List.mem_flatMap]
    constructor
    · intro hj
      obtain ⟨t, ht, hj⟩ := hj
      obtain ⟨p, -, hps, hspan⟩ := hmem t ht
      obtain ⟨q, hq, hpq⟩ := (hspan.mem_iff j).mp hj
      exact ⟨q, hq, p, hps, hpq⟩
    · intro hj
      obtain ⟨q, hq, p, hps, hpq⟩ := hj
      obtain ⟨k, hk⟩ := exists_above (hd.proper.lead_mem hq.mem_paths hpq)
      have hkc : k ∈ ts.map Tree.id := hids ▸ mem_childIds_iff_above.mpr ⟨p, hk, hps⟩
      obtain ⟨t, ht, rfl⟩ := List.mem_map.mp hkc
      obtain ⟨p', hp', -, hspan⟩ := hmem t ht
      obtain rfl := path_eq_of_above hk hp'
      exact ⟨t, ht, (hspan.mem_iff j).mpr ⟨q, hq, hpq⟩⟩

end children

theorem WellFormed.spans (hd : d.WellFormed) {depth id : Nat} {p : QualifiedName} {t : Tree}
    (hp : d.Above (some id) (some p)) (h : d.subtree? depth id = some t) : d.Spans t p := by
  induction depth generalizing id p t with
  | zero => simp [subtree?] at h
  | succ depth ih =>
    obtain ⟨n, ts, hn, hts, rfl⟩ := subtree?_eq_some_iff.mp h
    have hstands : d.standsFor id n = some p := (hd.above_iff hp hn).mp rfl
    rw [hd.children id n hn, hstands] at hts
    have hbelow := hd.spansBelow hts fun j q t hq ht => ih hq ht
    refine ⟨?_, fun j => ?_⟩
    · rw [Tree.ids_node]
      refine List.nodup_cons.mpr ⟨fun hid => ?_, hbelow.nodup⟩
      obtain ⟨q, hq, hpq⟩ := (hbelow.mem_iff id).mp hid
      exact (QualifiedName.liesIn_some_iff.mp hpq).2 (path_eq_of_above hp hq)
    · rw [Tree.ids_node, List.mem_cons, hbelow.mem_iff]
      simp only [QualifiedName.liesIn_some_iff]
      constructor
      · intro hj
        rcases hj with rfl | ⟨q, hq, hpq, -⟩
        · exact ⟨p, hp, .refl p⟩
        · exact ⟨q, hq, hpq⟩
      · intro hj
        obtain ⟨q, hq, hpq⟩ := hj
        by_cases hne : p = q
        · exact .inl (hd.id_eq_of_above hq (hne ▸ hp))
        · exact .inr ⟨q, hq, hpq, hne⟩

/-! The whole tree -/

/-- Children come after their parent. -/
theorem WellFormed.lt_of_mem_children (hd : d.WellFormed) {id : Nat} {n : Node}
    (hn : d.nodes[id]? = some n) {j : Nat} (hj : j ∈ n.children) :
    id < j ∧ j < d.nodes.size := by
  rw [hd.children id n hn] at hj
  obtain ⟨p, hp, hs⟩ := mem_childIds_iff_above.mp hj
  refine ⟨?_, hp.lt_size hd.toLinked⟩
  obtain ⟨i, rfl, hi⟩ := above_some_some.mp hp
  cases hstands : d.standsFor id n with
  | none =>
    have := root?_eq_some_iff.mp (standsFor_eq_none_iff.mp hstands)
    omega
  | some s =>
    have hmem : s ∈ d.paths.take i := hd.proper.scopes i p s hi (hs.trans hstands)
    obtain ⟨k, hk⟩ := List.mem_iff_getElem?.mp hmem
    rw [List.getElem?_take] at hk
    obtain ⟨hki, hks⟩ : k < i ∧ d.paths[k]? = some s := by
      split at hk <;> simp_all
    have hid : id = d.base + k :=
      hd.id_eq_of_above (above_of_standsFor hn hstands) (above_some_some.mpr ⟨k, rfl, hks⟩)
    omega

theorem WellFormed.exists_subtree (hd : d.WellFormed) {depth id : Nat} (hid : id < d.nodes.size)
    (hdepth : d.nodes.size ≤ depth + id) : ∃ t, d.subtree? depth id = some t := by
  induction depth generalizing id with
  | zero => omega
  | succ depth ih =>
    have hn : d.nodes[id]? = some d.nodes[id] := Array.getElem?_eq_getElem hid
    obtain ⟨ts, hts⟩ : ∃ ts, (d.nodes[id]).children.mapM (d.subtree? depth) = some ts := by
      refine exists_mapM fun j hj => ?_
      have hlt := hd.lt_of_mem_children hn hj
      exact ih hlt.2 (by omega)
    exact ⟨_, subtree?_eq_some_iff.mpr ⟨_, ts, hn, hts, rfl⟩⟩

theorem above_iff_base_le (hd : d.Linked) (j : Nat) :
    (∃ q, d.Above (some j) (some q)) ↔ d.base ≤ j ∧ j < d.nodes.size := by
  constructor
  · intro h
    obtain ⟨q, hq⟩ := h
    obtain ⟨i, hid, -⟩ := above_some_some.mp hq
    exact ⟨by omega, hq.lt_size hd⟩
  · intro h
    have hlt : j - d.base < d.paths.length := by
      have := hd.size_eq
      omega
    exact ⟨d.paths[j - d.base], above_some_some.mpr
      ⟨j - d.base, by omega, List.getElem?_eq_getElem hlt⟩⟩

theorem WellFormed.ids_perm (hd : d.WellFormed) (hr : d.rooted) {depth : Nat} {t : Tree}
    (h : d.subtree? depth 0 = some t) : t.ids.Perm (List.range d.nodes.size) := by
  cases depth with
  | zero => simp [subtree?] at h
  | succ depth =>
    obtain ⟨n, ts, hn, hts, rfl⟩ := subtree?_eq_some_iff.mp h
    have hbase := base_of_rooted hr
    have hstands : d.standsFor 0 n = none := by simp [standsFor, root?, hr]
    have hsize : 0 < d.nodes.size := (Array.getElem?_eq_some_iff.mp hn).1
    rw [hd.children 0 n hn, hstands] at hts
    have hbelow := hd.spansBelow hts fun j q t hq ht => hd.spans hq ht
    have hmem (j : Nat) : j ∈ ts.flatMap Tree.ids ↔ 1 ≤ j ∧ j < d.nodes.size := by
      rw [hbelow.mem_iff, ← hbase, ← above_iff_base_le hd.toLinked]
      simp [QualifiedName.liesIn_none]
    rw [Tree.ids_node]
    refine (List.perm_ext_iff_of_nodup ?_ List.nodup_range).mpr fun j => ?_
    · exact List.nodup_cons.mpr ⟨by simp [hmem], hbelow.nodup⟩
    · rw [List.mem_cons, hmem, List.mem_range]
      omega

/-- What the tree nodes show can be looked up by their numbers. -/
theorem map_some_shown {depth id : Nat} {t : Tree} (h : d.subtree? depth id = some t) {α : Type}
    {f : Tree → α} {g : Node → α} (hfg : ∀ m n, d.Shows m n → f m = g n) :
    (t.nodes.map f).map some = t.ids.map fun id => (d.nodes[id]?).map g := by
  rw [Tree.ids, List.map_map, List.map_map]
  refine List.map_congr_left fun m hm => ?_
  obtain ⟨n, hn⟩ := exists_shows h m hm
  simp [hn.found, hfg m n hn]

/-- What the tree nodes show is what the nodes of the draft hold, each node being shown once. -/
theorem WellFormed.shown_perm (hd : d.WellFormed) (hr : d.rooted) {depth : Nat} {t : Tree}
    (h : d.subtree? depth 0 = some t) {α : Type} {f : Tree → α} {g : Node → α}
    (hfg : ∀ m n, d.Shows m n → f m = g n) :
    (t.nodes.map f).Perm (d.nodes.toList.map g) := by
  have hheld : (List.range d.nodes.size).map (fun id => (d.nodes[id]?).map g) =
      (d.nodes.toList.map g).map some := by
    refine List.ext_getElem (by simp) fun i hi _ => ?_
    have hlt : i < d.nodes.size := by simpa using hi
    simp [Array.getElem?_eq_getElem hlt]
  refine (List.map_perm_map_iff fun _ _ => Option.some.inj).mp ?_
  rw [map_some_shown h hfg, ← hheld]
  exact (hd.ids_perm hr h).map _

/-- The numbered entries whose paths lead through `p`. -/
def numberedBelow (d : Draft) (p : QualifiedName) : List (Entry × Nat) :=
  (d.entries.zipIdx d.base).filter fun e => p.IsLeadOf e.1.path

theorem mem_numberedBelow {p : QualifiedName} {e : Entry} {id : Nat} :
    (e, id) ∈ d.numberedBelow p ↔
      (∃ i, id = d.base + i ∧ d.entries[i]? = some e) ∧ p.IsLeadOf e.path := by
  rw [numberedBelow, List.mem_filter, decide_eq_true_eq, List.mk_mem_zipIdx_iff_le_and_getElem?_sub]
  refine and_congr_left fun _ => ?_
  constructor
  · intro h
    exact ⟨id - d.base, (Nat.add_sub_of_le h.1).symm, h.2⟩
  · rintro ⟨i, rfl, hi⟩
    exact ⟨Nat.le_add_right _ _, by rwa [Nat.add_sub_cancel_left]⟩

theorem map_fst_numberedBelow (d : Draft) (p : QualifiedName) :
    (d.numberedBelow p).map Prod.fst = d.entries.filter fun e => p.IsLeadOf e.path := by
  conv_rhs => rw [← List.zipIdx_map_fst d.base d.entries, List.filter_map]
  rfl

theorem WellFormed.ids_perm_of_above (hd : d.WellFormed) {p : QualifiedName} {depth id : Nat}
    {t : Tree} (hp : d.Above (some id) (some p)) (h : d.subtree? depth id = some t) :
    t.ids.Perm ((d.numberedBelow p).map Prod.snd) := by
  have hspans := hd.spans hp h
  have hnodup : ((d.numberedBelow p).map Prod.snd).Nodup := by
    have hall : ((d.entries.zipIdx d.base).map Prod.snd).Nodup := by
      rw [List.zipIdx_map_snd]
      exact List.nodup_range'
    exact hall.sublist (List.filter_sublist.map _)
  refine (List.perm_ext_iff_of_nodup hspans.nodup hnodup).mpr fun j => ?_
  rw [hspans.mem_iff, List.mem_map]
  constructor
  · intro hj
    obtain ⟨q, hq, hpq⟩ := hj
    obtain ⟨i, rfl, hi⟩ := above_some_some.mp hq
    rw [paths, Outline.paths, List.getElem?_map] at hi
    obtain ⟨e, he, rfl⟩ := Option.map_eq_some_iff.mp hi
    exact ⟨(e, d.base + i), mem_numberedBelow.mpr ⟨⟨i, rfl, he⟩, hpq⟩, rfl⟩
  · intro hj
    obtain ⟨⟨e, j⟩, he, rfl⟩ := hj
    obtain ⟨⟨i, rfl, hi⟩, hpe⟩ := mem_numberedBelow.mp he
    refine ⟨e.path, above_some_some.mpr ⟨i, rfl, ?_⟩, hpe⟩
    rw [paths, Outline.paths, outline, List.getElem?_map, hi, Option.map_some]

/-- Below a node the tree shows the entries whose paths lead through its path. -/
theorem WellFormed.shown_perm_of_above (hd : d.WellFormed) {p : QualifiedName} {depth id : Nat}
    {t : Tree} (hp : d.Above (some id) (some p)) (h : d.subtree? depth id = some t) {α : Type}
    {f : Tree → α} {g : Entry → α} (hfg : ∀ m n, d.Shows m n → f m = g n.entry) :
    (t.nodes.map f).Perm ((d.entries.filter fun e => p.IsLeadOf e.path).map g) := by
  have hheld : ((d.numberedBelow p).map Prod.snd).map
      (fun id => (d.nodes[id]?).map fun n => g n.entry) =
        ((d.entries.filter fun e => p.IsLeadOf e.path).map g).map some := by
    rw [← map_fst_numberedBelow, List.map_map, List.map_map, List.map_map]
    refine List.map_congr_left fun ⟨e, id⟩ he => ?_
    obtain ⟨⟨i, rfl, hi⟩, -⟩ := mem_numberedBelow.mp he
    rw [getElem?_entries] at hi
    obtain ⟨n, hn, rfl⟩ := Option.map_eq_some_iff.mp hi
    simp only [Function.comp_apply, hn, Option.map_some]
  refine (List.map_perm_map_iff fun _ _ => Option.some.inj).mp ?_
  rw [map_some_shown h hfg, ← hheld]
  exact (hd.ids_perm_of_above hp h).map _

end Draft

end DecompTracker.Hierarchy
