import DecompTracker.Hierarchy.Draft
import DecompTracker.Proofs.QualifiedName.Leads

/-! What follows from the paths of a hierarchy once they are numbered one after the other: which
numbers lie directly in a scope, and which edges tell containment. Both are lists in increasing
order, and both grow at their end with the paths. -/
namespace DecompTracker.Hierarchy

/-- The numbers of the paths that lie directly in a scope, or in none. The first path has the number
`start`. -/
def childIds (start : Nat) (paths : List QualifiedName) (s? : Option QualifiedName) :
    List Nat :=
  ((paths.zipIdx start).filter fun e => e.1.scope? = s?).map Prod.snd

/-- The edge from the scope of a path to the path. -/
def containment? (start : Nat) (paths : List QualifiedName) (e : QualifiedName × Nat) :
    Option Edge :=
  e.1.scope?.map fun s => ⟨start + paths.idxOf s, e.2, .contains⟩

def containments (start : Nat) (paths : List QualifiedName) : List Edge :=
  (paths.zipIdx start).filterMap (containment? start paths)

variable {start : Nat} {paths : List QualifiedName}

theorem mem_childIds {s? : Option QualifiedName} {id : Nat} :
    id ∈ childIds start paths s? ↔ ∃ i p, id = start + i ∧ paths[i]? = some p ∧ p.scope? = s? := by
  simp only [childIds, List.mem_map, List.mem_filter, decide_eq_true_eq]
  constructor
  · rintro ⟨⟨p, j⟩, ⟨hm, hs⟩, rfl⟩
    obtain ⟨hle, hp⟩ := List.mk_mem_zipIdx_iff_le_and_getElem?_sub.mp hm
    exact ⟨j - start, p, (Nat.add_sub_of_le hle).symm, hp, hs⟩
  · rintro ⟨i, p, rfl, hp, hs⟩
    exact ⟨(p, start + i), ⟨List.mk_add_mem_zipIdx_iff_getElem?.mpr hp, hs⟩, rfl⟩

/-- Numbers of selected paths increase. -/
theorem pairwise_numbers (f : QualifiedName × Nat → Bool) :
    (((paths.zipIdx start).filter f).map Prod.snd).Pairwise (· < ·) := by
  have hr : ((paths.zipIdx start).map Prod.snd).Pairwise (· < ·) := by
    rw [List.zipIdx_map_snd]
    exact List.pairwise_lt_range'
  exact List.pairwise_map.mpr ((List.pairwise_map.mp hr).filter _)

theorem pairwise_childIds (s? : Option QualifiedName) :
    (childIds start paths s?).Pairwise (· < ·) :=
  pairwise_numbers _

theorem childIds_concat (p : QualifiedName) (s? : Option QualifiedName) :
    childIds start (paths ++ [p]) s? =
      childIds start paths s? ++ if p.scope? = s? then [start + paths.length] else [] := by
  by_cases h : p.scope? = s? <;> simp [childIds, List.zipIdx_append, h]

/-- Numbering from one later makes every number one larger. -/
theorem childIds_succ (s? : Option QualifiedName) :
    childIds (start + 1) paths s? = (childIds start paths s?).map (· + 1) := by
  simp only [childIds, List.zipIdx_succ, List.filter_map, List.map_map]
  rfl

theorem containments_concat {p : QualifiedName}
    (hc : ∀ q ∈ paths, ∀ s, q.scope? = some s → s ∈ paths)
    (hp : ∀ s, p.scope? = some s → s ∈ paths) :
    containments start (paths ++ [p]) =
      containments start paths ++ (containment? start paths (p, start + paths.length)).toList := by
  -- A scope that has been met keeps its number when a path is added.
  have hstep (q : QualifiedName) (id : Nat) (hq : ∀ s, q.scope? = some s → s ∈ paths) :
      containment? start (paths ++ [p]) (q, id) = containment? start paths (q, id) := by
    refine Option.map_congr fun s hs => ?_
    rw [List.idxOf_append_of_mem (hq s hs)]
  have hold : (paths.zipIdx start).filterMap (containment? start (paths ++ [p])) =
      containments start paths :=
    List.filterMap_congr fun e he => hstep e.1 e.2 (hc e.1 (List.fst_mem_of_mem_zipIdx he))
  rw [containments, List.zipIdx_append, List.filterMap_append, hold, List.zipIdx_singleton]
  congr 1
  simp only [List.filterMap_cons, List.filterMap_nil, hstep p (start + paths.length) hp]
  cases containment? start paths (p, start + paths.length) <;> rfl

/-! Ends of containment edges -/

theorem mem_containments {e : Edge} : e ∈ containments start paths ↔
    ∃ p s, (p, e.target) ∈ paths.zipIdx start ∧ p.scope? = some s ∧
      e = ⟨start + paths.idxOf s, e.target, .contains⟩ := by
  simp only [containments, containment?, List.mem_filterMap, Option.map_eq_some_iff]
  constructor
  · intro h
    obtain ⟨⟨p, id⟩, hp, s, hs, rfl⟩ := h
    exact ⟨p, s, hp, hs, rfl⟩
  · intro h
    obtain ⟨p, s, hp, hs, he⟩ := h
    exact ⟨(p, e.target), hp, s, hs, he.symm⟩

/-- Containment edges end at the paths that lie in a scope, one at each. -/
theorem map_target_containments :
    (containments start paths).map Edge.target =
      ((paths.zipIdx start).filter fun e => e.1.scope?.isSome).map Prod.snd := by
  suffices h : ∀ l : List (QualifiedName × Nat),
      (l.filterMap (containment? start paths)).map Edge.target =
        (l.filter fun e => e.1.scope?.isSome).map Prod.snd from h _
  intro l
  induction l with
  | nil => rfl
  | cons e l ih =>
    cases hs : e.1.scope? <;> simp [containment?, hs, ih]

/-- An edge comes from the scope of the path it ends at, which stands before that path. -/
theorem ends_of_mem_containments
    (hs : ∀ i p s, paths[i]? = some p → p.scope? = some s → s ∈ paths.take i) {e : Edge}
    (he : e ∈ containments start paths) :
    ∃ i j p s, e.source = start + i ∧ e.target = start + j ∧ i < j ∧ paths[i]? = some s ∧
      paths[j]? = some p ∧ p.scope? = some s := by
  obtain ⟨p, s, hp, hps, heq⟩ := mem_containments.mp he
  obtain ⟨hle, hj⟩ := List.mk_mem_zipIdx_iff_le_and_getElem?_sub.mp hp
  have htake := hs _ p s hj hps
  have hmem := List.mem_of_mem_take htake
  refine ⟨paths.idxOf s, e.target - start, p, s, ?_, (Nat.add_sub_of_le hle).symm, ?_, ?_, hj, hps⟩
  · rw [heq]
  · exact (List.mem_take_iff_idxOf_lt hmem).mp htake
  · exact List.getElem?_idxOf hmem

theorem idxOf_eq_iff_getElem? (hn : paths.Nodup) {s : QualifiedName} (hs : s ∈ paths) {i : Nat} :
    paths.idxOf s = i ↔ paths[i]? = some s := by
  constructor
  · intro h
    exact h ▸ List.getElem?_idxOf hs
  · intro h
    obtain ⟨hlt, rfl⟩ := List.getElem?_eq_some_iff.mp h
    exact hn.idxOf_getElem i hlt

/-- The edges from a path run to what lies directly in it. -/
theorem map_target_filter_source (hn : paths.Nodup)
    (hc : ∀ q ∈ paths, ∀ s, q.scope? = some s → s ∈ paths) {i : Nat} {p : QualifiedName}
    (hp : paths[i]? = some p) :
    ((containments start paths).filter fun e => e.source = start + i).map Edge.target =
      childIds start paths (some p) := by
  suffices h : ∀ l : List (QualifiedName × Nat), (∀ e ∈ l, e.1 ∈ paths) →
      ((l.filterMap (containment? start paths)).filter fun e => e.source = start + i).map
          Edge.target =
        (l.filter fun e => e.1.scope? = some p).map Prod.snd from
    h _ fun e he => List.fst_mem_of_mem_zipIdx he
  intro l hl
  induction l with
  | nil => rfl
  | cons e l ih =>
    obtain ⟨he, hl⟩ := List.forall_mem_cons.mp hl
    cases hs : e.1.scope? with
    | none => simp [containment?, hs, ih hl]
    | some s =>
      have hiff := idxOf_eq_iff_getElem? hn (hc e.1 he s hs) (i := i)
      by_cases h : s = p
      · subst h
        have hi := hiff.mpr hp
        simp [containment?, hs, hi, ih hl]
      · have hi : ¬ paths.idxOf s = i := fun hi =>
          h (Option.some.inj ((hiff.mp hi).symm.trans hp))
        simp [containment?, hs, h, hi, ih hl]

theorem eq_of_mem_zipIdx {e f : QualifiedName × Nat} (he : e ∈ paths.zipIdx start)
    (hf : f ∈ paths.zipIdx start) (h : e.2 = f.2) : e = f := by
  have hp := (List.mk_mem_zipIdx_iff_le_and_getElem?_sub.mp he).2
  have hq := (List.mk_mem_zipIdx_iff_le_and_getElem?_sub.mp hf).2
  rw [h] at hp
  exact Prod.ext (Option.some.inj (hp.symm.trans hq)) h

/-- The paths that no containment edge ends at lie in no scope. -/
theorem filter_not_target :
    ((List.range' start paths.length).filter fun j =>
        j ∉ (containments start paths).map Edge.target) =
      childIds start paths none := by
  rw [childIds, ← List.zipIdx_map_snd start paths, List.filter_map, map_target_containments]
  refine congrArg (List.map Prod.snd) (List.filter_congr fun e he => ?_)
  have hiff : e.2 ∈ ((paths.zipIdx start).filter fun f => f.1.scope?.isSome).map Prod.snd ↔
      e.1.scope?.isSome := by
    constructor
    · intro h
      obtain ⟨f, hf, hfe⟩ := List.mem_map.mp h
      obtain ⟨hf, hs⟩ := List.mem_filter.mp hf
      exact eq_of_mem_zipIdx hf he hfe ▸ hs
    · intro h
      exact List.mem_map_of_mem (List.mem_filter.mpr ⟨he, h⟩)
  simp only [Function.comp_apply, hiff]
  cases e.1.scope? <;> simp

end DecompTracker.Hierarchy
