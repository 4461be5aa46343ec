import DecompTracker.Proofs.Hierarchy.Outline

/-! Which classes can stand in one hierarchy. Entering a name whose leads agree with an outline adds
the missing ones, in their order; at any other name entering stops with a conflict. -/
namespace DecompTracker

open Hierarchy

/-- Two classes cannot stand in one hierarchy when leading parts of their names differ but are
written the same, or when they have one name and different details. -/
def ClassStatus.Conflicts (x y : ClassStatus) : Prop :=
  (∃ p q : QualifiedName, p.IsLeadOf x.name ∧ q.IsLeadOf y.name ∧ p.joined = q.joined ∧ p ≠ q) ∨
    (x.name = y.name ∧ x.toClassDetails ≠ y.toClassDetails)

theorem ClassStatus.conflicts_iff_leads (x y : ClassStatus) : x.Conflicts y ↔
    (∃ p ∈ x.name.leads, ∃ q ∈ y.name.leads, p.joined = q.joined ∧ p ≠ q) ∨
      (x.name = y.name ∧ x.toClassDetails ≠ y.toClassDetails) := by
  simp only [Conflicts, QualifiedName.mem_leads]
  refine or_congr_left ⟨?_, ?_⟩
  · rintro ⟨p, q, hp, hq, h⟩
    exact ⟨p, hp, q, hq, h⟩
  · rintro ⟨p, hp, q, hq, h⟩
    exact ⟨p, q, hp, hq, h⟩

instance (x y : ClassStatus) : Decidable (x.Conflicts y) :=
  decidable_of_iff _ (x.conflicts_iff_leads y).symm

/-- No class conflicts with itself, since its leads are told apart by how they are written. -/
theorem ClassStatus.not_conflicts_self (x : ClassStatus) : ¬ x.Conflicts x := by
  rintro (⟨p, q, hp, hq, hj, hne⟩ | ⟨-, hd⟩)
  · exact hne (hp.eq_of_joined_eq hq hj)
  · exact hd rfl

/-- The leads of all names, each where it first appears. -/
def allLeads (classes : List ClassStatus) : List QualifiedName :=
  (classes.flatMap fun c => c.name.leads).eraseDups

theorem mem_allLeads {classes : List ClassStatus} {p : QualifiedName} :
    p ∈ allLeads classes ↔ ∃ c ∈ classes, p.IsLeadOf c.name := by
  simp [allLeads, QualifiedName.mem_leads]

theorem allLeads_concat (classes : List ClassStatus) (c : ClassStatus) :
    allLeads (classes ++ [c]) =
      allLeads classes ++ c.name.leads.filter (· ∉ allLeads classes) := by
  simp only [allLeads, List.flatMap_append, List.flatMap_cons, List.flatMap_nil, List.append_nil]
  rw [eraseDups_append_of_nodup _ c.name.nodup_leads]
  simp

/-- Every name written to each depth, from its first segment on, without later repeats. -/
def writtenLeads (classes : List ClassStatus) : List String :=
  (classes.flatMap fun c => (List.range' 1 c.name.length).map c.name.joinedLead).eraseDups

theorem QualifiedName.map_joined_leads (name : QualifiedName) :
    name.leads.map joined = (List.range' 1 name.length).map name.joinedLead := by
  rw [leads, List.range'_eq_map_range, List.map_map, List.map_map]
  refine List.map_congr_left fun depth _ => ?_
  simp only [Function.comp_apply, Nat.add_comm 1 depth]
  rfl

namespace Hierarchy.Outline

/-- No lead of the name is written like a different path. -/
def Agrees (o : Outline) (name : QualifiedName) : Prop :=
  ∀ p ∈ name.leads, ∀ q ∈ o.paths, q.joined = p.joined → q = p

/-- All missing leads of a name entered. -/
def extend (o : Outline) (name : QualifiedName) : Outline :=
  { o with entries :=
      o.entries ++ (name.leads.filter (· ∉ o.paths)).map fun p => ⟨p, name, none⟩ }

@[simp] theorem paths_extend (o : Outline) (name : QualifiedName) :
    (o.extend name).paths = o.paths ++ name.leads.filter (· ∉ o.paths) := by
  simp [extend, paths, Function.comp_def]

theorem name_mem_paths_extend (o : Outline) (name : QualifiedName) :
    name ∈ (o.extend name).paths := by
  by_cases h : name ∈ o.paths
  · simp [h]
  · simp [h, QualifiedName.mem_leads, QualifiedName.IsLeadOf.refl]

/-- Entering leads that agree with the paths adds the missing ones in their order. -/
theorem enter_of_agree {o : Outline} {name : QualifiedName} {ps : List QualifiedName}
    (hn : ps.Nodup) (hl : ∀ p ∈ ps, p.IsLeadOf name)
    (h : ∀ p ∈ ps, ∀ q ∈ o.paths, q.joined = p.joined → q = p) :
    o.enter name ps =
      ({ o with entries := o.entries ++ (ps.filter (· ∉ o.paths)).map fun p => ⟨p, name, none⟩ },
        true) := by
  induction ps generalizing o with
  | nil => simp [enter]
  | cons p ps ih =>
    obtain ⟨hp, hnps⟩ := List.nodup_cons.mp hn
    obtain ⟨hlp, hlps⟩ := List.forall_mem_cons.mp hl
    obtain ⟨hap, haps⟩ := List.forall_mem_cons.mp h
    rw [enter]
    split
    · rename_i e he
      obtain ⟨hmem, hw⟩ := mem_of_find?_eq_some he
      have hep : e.path = p := hap _ (mem_paths.mpr ⟨e, hmem, rfl⟩) hw
      have hpo : p ∈ o.paths := mem_paths.mpr ⟨e, hmem, hep⟩
      rw [if_pos hep, ih hnps hlps haps]
      simp [hpo]
    · rename_i he
      have hpo : p ∉ o.paths := fun hpo =>
        find?_eq_none_iff.mp he (List.mem_map_of_mem hpo)
      have hpush : ∀ q ∈ ps, ∀ r ∈ (o.push p name).paths, r.joined = q.joined → r = q := by
        intro q hq r hr hj
        rw [paths_push] at hr
        rcases List.mem_append.mp hr with hr | hr
        · exact haps q hq r hr hj
        · obtain rfl := List.mem_singleton.mp hr
          exact hlp.eq_of_joined_eq (hlps q hq) hj
      have hfilter : ps.filter (· ∉ o.paths ++ [p]) = ps.filter (· ∉ o.paths) :=
        List.filter_congr fun q hq => by
          have : q ≠ p := ne_of_mem_of_not_mem hq hp
          simp [this]
      rw [ih hnps hlps hpush, paths_push, hfilter]
      simp [push, hpo]

/-- Conversely, leads can all be entered only when they agree with the paths. -/
theorem agree_of_enter {o : Outline} {name : QualifiedName} {ps : List QualifiedName}
    (ho : (o.paths.map QualifiedName.joined).Nodup) (h : (o.enter name ps).2 = true) :
    ∀ p ∈ ps, ∀ q ∈ o.paths, q.joined = p.joined → q = p := by
  induction ps generalizing o with
  | nil => simp
  | cons p ps ih =>
    rw [enter] at h
    split at h
    · rename_i e he
      obtain ⟨hmem, hw⟩ := mem_of_find?_eq_some he
      split at h
      · rename_i hep
        refine List.forall_mem_cons.mpr ⟨fun q hq hj => ?_, ih ho h⟩
        have hpo : p ∈ o.paths := mem_paths.mpr ⟨e, hmem, hep⟩
        exact List.inj_on_of_nodup_map ho hq hpo hj
      · simp at h
    · rename_i he
      have hnone := find?_eq_none_iff.mp he
      refine List.forall_mem_cons.mpr ⟨fun q hq hj => ?_, fun q hq r hr => ?_⟩
      · exact absurd (hj ▸ List.mem_map_of_mem hq) hnone
      · exact ih (distinct_push name ho hnone) h q hq r (by simp [hr])

/-- Entering meets one conflict when it stops early, and none otherwise. -/
theorem conflicts_enter (o : Outline) (name : QualifiedName) (ps : List QualifiedName) :
    ((o.enter name ps).2 = true ∧ (o.enter name ps).1.conflicts = o.conflicts) ∨
      ((o.enter name ps).2 = false ∧
        ∃ x, (o.enter name ps).1.conflicts = o.conflicts ++ [x]) := by
  induction ps generalizing o with
  | nil => exact .inl ⟨rfl, rfl⟩
  | cons p ps ih =>
    rw [enter]
    split
    · split
      · exact ih o
      · exact .inr ⟨rfl, _, rfl⟩
    · exact ih _

theorem conflicts_describe (o : Outline) (c : ClassStatus) :
    (o.describe c).conflicts = o.conflicts ∨
      ∃ x, (o.describe c).conflicts = o.conflicts ++ [x] := by
  unfold describe
  split
  · exact .inl rfl
  · split
    · exact .inl rfl
    · exact .inr ⟨_, rfl⟩

/-- A class adds at most one conflict. -/
theorem conflicts_addClass (o : Outline) (c : ClassStatus) :
    (o.addClass c).conflicts = o.conflicts ∨
      ∃ x, (o.addClass c).conflicts = o.conflicts ++ [x] := by
  have he := conflicts_enter o c.name c.name.leads
  unfold addClass
  split <;> rename_i o' hr <;> simp only [hr] at he
  · have hc : o'.conflicts = o.conflicts := by simpa using he
    exact hc ▸ conflicts_describe o' c
  · exact .inr (by simpa using he)

theorem conflicts_eq_nil_of_addClass {o : Outline} {c : ClassStatus}
    (h : (o.addClass c).conflicts = []) : o.conflicts = [] := by
  rcases conflicts_addClass o c with hc | ⟨x, hc⟩
  · rw [← hc, h]
  · simp [hc] at h

end Hierarchy.Outline

end DecompTracker
