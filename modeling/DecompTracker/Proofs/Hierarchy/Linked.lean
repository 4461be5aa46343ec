import DecompTracker.Proofs.Hierarchy.Numbering
import DecompTracker.Proofs.Hierarchy.Outline

/-! Drafts whose links say the same as their outline: nodes are named as their paths are written, the
index finds each path by its written form, and child lists and containment edges are those of the
numbered paths. Each path then has one node, and each node but the root stands for one path. -/
namespace DecompTracker.Hierarchy

def Node.entry (n : Node) : Entry := ⟨n.path, n.origin, n.details⟩

namespace Draft

/-- The number of the first node that is not the root. -/
def base (d : Draft) : Nat := if d.rooted then 1 else 0

def entries (d : Draft) : List Entry := (d.nodes.toList.map Node.entry).drop d.base

def outline (d : Draft) : Outline := ⟨d.entries, d.conflicts.toList⟩

abbrev paths (d : Draft) : List QualifiedName := d.outline.paths

/-- What lies directly below a node lies directly in this scope; the root stands for none. -/
def standsFor (d : Draft) (id : Nat) (n : Node) : Option QualifiedName :=
  if d.root? = some id then none else some n.path

/-- The parent to give to what lies directly in a scope, or in none. -/
def Above (d : Draft) (id? : Option Nat) : Option QualifiedName → Prop
  | none => id? = d.root?
  | some s => ∃ i, id? = some (d.base + i) ∧ d.paths[i]? = some s

structure Linked (d : Draft) : Prop where
  root : d.rooted → ∃ n, d.nodes[0]? = some n ∧ n.entry = rootNode.entry
  named : ∀ (id : Nat) (n : Node), d.nodes[id]? = some n → n.name = n.path.joined
  index : ∀ (written : String) (id : Nat), d.lookup? written = some id ↔
    ∃ i p, id = d.base + i ∧ d.paths[i]? = some p ∧ p.joined = written
  children : ∀ (id : Nat) (n : Node), d.nodes[id]? = some n →
    n.children = childIds d.base d.paths (d.standsFor id n)
  edges : d.edges.toList.filter (·.kind = .contains) = containments d.base d.paths

structure WellFormed (d : Draft) : Prop extends Linked d where
  proper : d.outline.Proper

variable {d : Draft}

theorem base_of_rooted (hr : d.rooted) : d.base = 1 := if_pos hr

theorem base_of_unrooted (hr : d.rooted = false) : d.base = 0 := by simp [base, hr]

theorem getElem?_entries (d : Draft) (i : Nat) :
    d.entries[i]? = (d.nodes[d.base + i]?).map Node.entry := by
  simp [entries, List.getElem?_drop]

theorem getElem?_paths (d : Draft) (i : Nat) :
    d.paths[i]? = (d.nodes[d.base + i]?).map Node.path := by
  simp only [paths, Outline.paths, outline, List.getElem?_map, getElem?_entries, Option.map_map]
  rfl

theorem root?_eq_some_iff {id : Nat} : d.root? = some id ↔ id < d.base := by
  cases h : d.rooted <;> simp [root?, base, h, eq_comm]

theorem Linked.base_le_size (hd : d.Linked) : d.base ≤ d.nodes.size := by
  cases h : d.rooted with
  | false => simp [base, h]
  | true =>
    obtain ⟨n, hn, -⟩ := hd.root h
    obtain ⟨hlt, -⟩ := Array.getElem?_eq_some_iff.mp hn
    simp only [base, h, if_true]
    exact hlt

theorem length_paths (d : Draft) : d.paths.length = d.nodes.size - d.base := by
  simp [paths, Outline.paths, outline, entries]

theorem Linked.size_eq (hd : d.Linked) : d.nodes.size = d.base + d.paths.length := by
  have := hd.base_le_size
  have := length_paths d
  omega

theorem standsFor_eq_none_iff {id : Nat} {n : Node} :
    d.standsFor id n = none ↔ d.root? = some id := by
  simp [standsFor]

theorem standsFor_eq_some_iff {id : Nat} {n : Node} {s : QualifiedName} :
    d.standsFor id n = some s ↔ d.base ≤ id ∧ n.path = s := by
  by_cases h : id < d.base
  · simp [standsFor, root?_eq_some_iff, h, Nat.not_le.mpr h]
  · simp [standsFor, root?_eq_some_iff, h, Nat.not_lt.mp h]

theorem Above.lt_size (hd : d.Linked) {id : Nat} {s? : Option QualifiedName}
    (h : d.Above (some id) s?) : id < d.nodes.size := by
  cases s? with
  | none =>
    have := hd.base_le_size
    have := root?_eq_some_iff.mp (show d.root? = some id from Eq.symm h)
    omega
  | some s =>
    obtain ⟨i, hid, hi⟩ := h
    have := hd.size_eq
    have := (List.getElem?_eq_some_iff.mp hi).1
    have := Option.some.inj hid
    omega

theorem above_some_some {j : Nat} {q : QualifiedName} :
    d.Above (some j) (some q) ↔ ∃ i, j = d.base + i ∧ d.paths[i]? = some q := by
  simp [Above]

theorem WellFormed.id_eq_of_above (hd : d.WellFormed) {j k : Nat} {q : QualifiedName}
    (hj : d.Above (some j) (some q)) (hk : d.Above (some k) (some q)) : j = k := by
  obtain ⟨i, rfl, hi⟩ := above_some_some.mp hj
  obtain ⟨i', rfl, hi'⟩ := above_some_some.mp hk
  have := (List.getElem?_inj (List.getElem?_eq_some_iff.mp hi).1 hd.proper.nodup_paths).mp
    (hi.trans hi'.symm)
  omega

theorem path_eq_of_above {j : Nat} {p q : QualifiedName} (hp : d.Above (some j) (some p))
    (hq : d.Above (some j) (some q)) : p = q := by
  obtain ⟨i, rfl, hi⟩ := above_some_some.mp hp
  obtain ⟨i', hid, hi'⟩ := above_some_some.mp hq
  obtain rfl : i = i' := by omega
  exact Option.some.inj (hi.symm.trans hi')

theorem exists_above {p : QualifiedName} (hp : p ∈ d.paths) :
    ∃ j, d.Above (some j) (some p) := by
  obtain ⟨i, hi⟩ := List.mem_iff_getElem?.mp hp
  exact ⟨d.base + i, above_some_some.mpr ⟨i, rfl, hi⟩⟩

theorem Above.mem_paths {id? : Option Nat} {s : QualifiedName} (h : d.Above id? (some s)) :
    s ∈ d.paths := by
  obtain ⟨i, -, hi⟩ := h
  exact List.mem_of_getElem? hi

theorem above_of_standsFor {id : Nat} {n : Node} {s : QualifiedName}
    (hn : d.nodes[id]? = some n) (h : d.standsFor id n = some s) :
    d.Above (some id) (some s) := by
  obtain ⟨hle, rfl⟩ := standsFor_eq_some_iff.mp h
  refine above_some_some.mpr ⟨id - d.base, (Nat.add_sub_of_le hle).symm, ?_⟩
  rw [getElem?_paths, Nat.add_sub_of_le hle, hn]
  rfl

/-- One node stands for a scope, and it is the one above. -/
theorem WellFormed.above_iff (hd : d.WellFormed) {id? : Option Nat} {s? : Option QualifiedName}
    (ha : d.Above id? s?) {id : Nat} {n : Node} (hn : d.nodes[id]? = some n) :
    id? = some id ↔ d.standsFor id n = s? := by
  cases s? with
  | none => rw [standsFor_eq_none_iff, show id? = d.root? from ha]
  | some s =>
    obtain ⟨j, rfl⟩ : ∃ j, id? = some j := ⟨_, ha.choose_spec.1⟩
    constructor
    · intro hid
      obtain rfl := Option.some.inj hid
      obtain ⟨i, rfl, hi⟩ := above_some_some.mp ha
      rw [getElem?_paths, hn] at hi
      exact standsFor_eq_some_iff.mpr ⟨Nat.le_add_right _ _, by simpa using hi⟩
    · intro hstands
      rw [hd.id_eq_of_above ha (above_of_standsFor hn hstands)]

/-! The node present under a written form -/

theorem WellFormed.find?_of_above (hd : d.WellFormed) {id : Nat} {s : QualifiedName}
    (ha : d.Above (some id) (some s)) :
    ∃ n, d.nodes[id]? = some n ∧ n.path = s ∧ d.outline.find? s.joined = some n.entry := by
  obtain ⟨i, hid, hi⟩ := ha
  obtain rfl := Option.some.inj hid
  rw [getElem?_paths] at hi
  obtain ⟨n, hn, rfl⟩ := Option.map_eq_some_iff.mp hi
  have he : d.entries[i]? = some n.entry := by
    rw [getElem?_entries, hn]
    rfl
  exact ⟨n, hn, rfl, hd.proper.find?_eq_some_iff.mpr ⟨List.mem_of_getElem? he, rfl⟩⟩

theorem WellFormed.of_present?_eq_some (hd : d.WellFormed) {written : String} {id : Nat}
    {n : Node} (h : d.present? written = some (id, n)) :
    d.outline.find? written = some n.entry ∧ d.Above (some id) (some n.path) := by
  simp only [present?, Option.bind_eq_bind, Option.bind_eq_some_iff, Option.pure_def,
    Option.some.injEq, Prod.mk.injEq] at h
  obtain ⟨j, hl, m, hm, rfl, rfl⟩ := h
  obtain ⟨i, p, rfl, hp, rfl⟩ := (hd.index _ _).mp hl
  have ha : d.Above (some (d.base + i)) (some p) := ⟨i, rfl, hp⟩
  obtain ⟨n, hn, rfl, hf⟩ := hd.find?_of_above ha
  obtain rfl := Option.some.inj (hm.symm.trans hn)
  exact ⟨hf, ha⟩

theorem WellFormed.present?_eq_none_iff (hd : d.WellFormed) {written : String} :
    d.present? written = none ↔ d.outline.find? written = none := by
  constructor
  · intro h
    rw [Outline.find?_eq_none_iff, List.mem_map]
    rintro ⟨p, hp, rfl⟩
    obtain ⟨i, hi⟩ := List.mem_iff_getElem?.mp hp
    have hl := (hd.index p.joined (d.base + i)).mpr ⟨i, p, rfl, hi, rfl⟩
    obtain ⟨n, hn, -⟩ := Option.map_eq_some_iff.mp ((getElem?_paths d i).symm.trans hi)
    simp [present?, hl, hn] at h
  · intro h
    cases hp : d.present? written with
    | none => rfl
    | some e => simp [(hd.of_present?_eq_some hp).1] at h

end Draft

end DecompTracker.Hierarchy
