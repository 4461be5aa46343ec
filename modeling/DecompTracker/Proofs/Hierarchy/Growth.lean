import DecompTracker.Proofs.Hierarchy.Linked

/-! How drafts grow by a node. Making the node of a new path under the node of its scope keeps a draft
well-formed: the index, the children and the containment edges change as the numbered paths do. -/
namespace DecompTracker.Hierarchy.Draft

variable {d : Draft}

@[simp] theorem rooted_create (d : Draft) (parent? : Option Nat) (origin path : QualifiedName) :
    (d.create parent? origin path).rooted = d.rooted := by
  cases parent? <;> rfl

@[simp] theorem base_create (d : Draft) (parent? : Option Nat) (origin path : QualifiedName) :
    (d.create parent? origin path).base = d.base := by
  simp [base]

@[simp] theorem root?_create (d : Draft) (parent? : Option Nat) (origin path : QualifiedName) :
    (d.create parent? origin path).root? = d.root? := by
  simp [root?]

/-- The new node comes last, and its parent gets it as its last child. -/
theorem getElem?_create (d : Draft) (parent? : Option Nat) (origin path : QualifiedName)
    (id : Nat) :
    (d.create parent? origin path).nodes[id]? =
      ((d.nodes.push ⟨path.joined, path, origin, none, []⟩)[id]?).map fun n =>
        if parent? = some id then { n with children := n.children ++ [d.nodes.size] } else n := by
  cases parent? with
  | none => simp [create]
  | some parent =>
    simp only [create, attach, Array.getElem?_modify, Option.some.injEq]
    split <;> simp_all

theorem outline_create (hd : d.Linked) (parent? : Option Nat) (origin path : QualifiedName) :
    (d.create parent? origin path).outline = d.outline.push path origin := by
  have hnodes : (d.create parent? origin path).nodes.toList.map Node.entry =
      d.nodes.toList.map Node.entry ++ [⟨path, origin, none⟩] := by
    have hmap : (d.create parent? origin path).nodes.toList.map Node.entry =
        (d.nodes.push ⟨path.joined, path, origin, none, []⟩).toList.map Node.entry := by
      refine List.ext_getElem? fun i => ?_
      simp only [List.getElem?_map, Array.getElem?_toList, getElem?_create, Option.map_map]
      refine Option.map_congr fun n _ => ?_
      simp only [Function.comp_apply]
      split <;> rfl
    rw [hmap, Array.toList_push, List.map_append]
    rfl
  have hconf : (d.create parent? origin path).conflicts = d.conflicts := by
    cases parent? <;> rfl
  have hlen : d.base ≤ (d.nodes.toList.map Node.entry).length := by
    simpa using hd.base_le_size
  simp only [outline, entries, hnodes, hconf, base_create, List.drop_append_of_le_length hlen,
    Outline.push]

theorem paths_create (hd : d.Linked) (parent? : Option Nat) (origin path : QualifiedName) :
    (d.create parent? origin path).paths = d.paths ++ [path] := by
  rw [paths, outline_create hd, Outline.paths_push]

theorem lookup?_create (d : Draft) (parent? : Option Nat) (origin path : QualifiedName)
    (written : String) :
    (d.create parent? origin path).lookup? written =
      if written = path.joined then some d.nodes.size else d.lookup? written := by
  have hindex : (d.create parent? origin path).index = d.index.insert path.joined d.nodes.size := by
    cases parent? <;> rfl
  rw [lookup?, hindex]
  split
  · subst written
    exact SortedMap.get?_insert_self _ _ _
  · exact SortedMap.get?_insert_of_ne _ _ ‹_›

theorem edges_create (d : Draft) (parent? : Option Nat) (origin path : QualifiedName) :
    (d.create parent? origin path).edges.toList = d.edges.toList ++
      (parent?.toList.filter (d.root? ≠ some ·)).map fun parent =>
        ⟨parent, d.nodes.size, .contains⟩ := by
  cases parent? with
  | none => simp [create]
  | some parent =>
    have hroot : ({ d with
        nodes := d.nodes.push ⟨path.joined, path, origin, none, []⟩
        index := d.index.insert path.joined d.nodes.size } : Draft).root? = d.root? := rfl
    by_cases h : d.root? = some parent <;> simp [create, attach, hroot, h]

section create

variable {parent? : Option Nat} {path : QualifiedName}

private theorem root_create (hd : d.Linked) (origin : QualifiedName) (hr : d.rooted) :
    ∃ n, (d.create parent? origin path).nodes[0]? = some n ∧ n.entry = rootNode.entry := by
  obtain ⟨n, hn, he⟩ := hd.root hr
  obtain ⟨hlt, -⟩ := Array.getElem?_eq_some_iff.mp hn
  rw [getElem?_create, Array.getElem?_push, if_neg hlt.ne, hn]
  refine ⟨_, rfl, ?_⟩
  rw [← he]
  split <;> rfl

private theorem named_create (hd : d.Linked) (origin : QualifiedName) (id : Nat) (n : Node)
    (hn : (d.create parent? origin path).nodes[id]? = some n) : n.name = n.path.joined := by
  rw [getElem?_create, Array.getElem?_push, Option.map_eq_some_iff] at hn
  obtain ⟨m, hm, rfl⟩ := hn
  have hname : m.name = m.path.joined := by
    split at hm
    · obtain rfl := Option.some.inj hm
      rfl
    · exact hd.named id m hm
  split <;> exact hname

private theorem index_create (hd : d.Linked) (origin : QualifiedName)
    (hnew : path.joined ∉ d.paths.map QualifiedName.joined) (written : String) (id : Nat) :
    (d.create parent? origin path).lookup? written = some id ↔
      ∃ i p, id = d.base + i ∧ (d.paths ++ [path])[i]? = some p ∧ p.joined = written := by
  rw [lookup?_create, hd.size_eq]
  split
  · rename_i h
    subst h
    rw [Option.some.injEq]
    constructor
    · rintro rfl
      exact ⟨_, path, rfl, by simp, rfl⟩
    · rintro ⟨i, p, rfl, hp, hj⟩
      rcases getElem?_concat_eq_some_iff.mp hp with hp | ⟨rfl, rfl⟩
      · exact absurd (hj ▸ List.mem_map_of_mem (List.mem_of_getElem? hp)) hnew
      · rfl
  · rename_i h
    rw [hd.index]
    constructor
    · rintro ⟨i, p, hid, hp, hj⟩
      exact ⟨i, p, hid, getElem?_concat_eq_some_iff.mpr (.inl hp), hj⟩
    · rintro ⟨i, p, hid, hp, hj⟩
      rcases getElem?_concat_eq_some_iff.mp hp with hp | ⟨rfl, rfl⟩
      · exact ⟨i, p, hid, hp, hj⟩
      · exact absurd hj.symm h

private theorem children_create (hd : d.WellFormed) (origin : QualifiedName)
    (hnew : path ∉ d.paths) (ha : d.Above parent? path.scope?) (id : Nat) (n : Node)
    (hn : (d.create parent? origin path).nodes[id]? = some n) :
    n.children = childIds d.base (d.paths ++ [path])
      ((d.create parent? origin path).standsFor id n) := by
  rw [getElem?_create, Array.getElem?_push, Option.map_eq_some_iff] at hn
  obtain ⟨m, hm, rfl⟩ := hn
  split at hm
  · -- The new node has no children, since the scope of a path stands before it.
    rename_i hid
    obtain rfl := Option.some.inj hm
    have hlt : parent? ≠ some id := by
      rintro rfl
      have := ha.lt_size hd.toLinked
      omega
    have hstands : (d.create parent? origin path).standsFor id ⟨path.joined, path, origin, none, []⟩ =
        some path := by
      rw [standsFor_eq_some_iff, base_create, hid]
      exact ⟨hd.base_le_size, rfl⟩
    rw [if_neg hlt, hstands]
    refine (List.eq_nil_iff_forall_not_mem.mpr fun j hj => ?_).symm
    obtain ⟨i, p, -, hp, hps⟩ := mem_childIds.mp hj
    rcases getElem?_concat_eq_some_iff.mp hp with hp | ⟨-, rfl⟩
    · exact hnew (hd.proper.scope_mem (List.mem_of_getElem? hp) hps)
    · exact QualifiedName.scope?_ne_self hps
  · -- An old node gets the new child exactly when it stands for the scope of the path.
    have hstands : (d.create parent? origin path).standsFor id
        (if parent? = some id then { m with children := m.children ++ [d.nodes.size] } else m) =
        d.standsFor id m := by
      by_cases h : parent? = some id <;> simp [standsFor, h]
    rw [hstands, childIds_concat, ← hd.size_eq, ← hd.children id m hm]
    have hiff := hd.above_iff ha hm
    by_cases h : parent? = some id
    · simp [h, (hiff.mp h).symm]
    · have hne : ¬ path.scope? = d.standsFor id m := fun he => h (hiff.mpr he.symm)
      simp [h, hne]

private theorem contains_create (hd : d.WellFormed) (origin : QualifiedName)
    (hs : ∀ s, path.scope? = some s → s ∈ d.paths) (ha : d.Above parent? path.scope?) :
    (d.create parent? origin path).edges.toList.filter (·.kind = .contains) =
      containments d.base (d.paths ++ [path]) := by
  rw [edges_create, List.filter_append, hd.edges,
    containments_concat (fun q hq s hqs => hd.proper.scope_mem hq hqs) hs, ← hd.size_eq]
  congr 1
  cases hp : path.scope? with
  | none =>
    obtain rfl : parent? = d.root? := by simpa [Above, hp] using ha
    cases hr : d.root? <;> simp [containment?, hp]
  | some s =>
    obtain ⟨i, rfl, hi⟩ : ∃ i, parent? = some (d.base + i) ∧ d.paths[i]? = some s := by
      simpa [Above, hp] using ha
    have hroot : d.root? ≠ some (d.base + i) := by simp [root?_eq_some_iff]
    have hidx : d.paths.idxOf s = i :=
      (idxOf_eq_iff_getElem? hd.proper.nodup_paths (List.mem_of_getElem? hi)).mpr hi
    simp [containment?, hp, hroot, hidx]

/-- Making the node of a new path under the node of its scope. -/
theorem WellFormed.create (hd : d.WellFormed) (origin : QualifiedName)
    (hnew : d.outline.find? path.joined = none)
    (hs : ∀ s, path.scope? = some s → s ∈ d.paths) (ha : d.Above parent? path.scope?) :
    (d.create parent? origin path).WellFormed := by
  have hfresh := Outline.find?_eq_none_iff.mp hnew
  have hproper := hd.proper.push origin hfresh hs
  refine ⟨⟨fun hr => root_create hd.toLinked origin (by simpa using hr),
    named_create hd.toLinked origin, ?_, ?_, ?_⟩, outline_create hd.toLinked parent? origin path ▸ hproper⟩ <;>
    simp only [base_create, paths_create hd.toLinked]
  · exact index_create hd.toLinked origin hfresh
  · exact children_create hd origin (fun h => hfresh (List.mem_map_of_mem h)) ha
  · exact contains_create hd origin hs ha

end create

end DecompTracker.Hierarchy.Draft
