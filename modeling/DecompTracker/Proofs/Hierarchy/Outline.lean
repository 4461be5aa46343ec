import DecompTracker.Hierarchy.Draft
import DecompTracker.Proofs.GrowingLists
import DecompTracker.Proofs.QualifiedName.Leads

/-! Outlines of drafts: which leading parts have been entered, by which class, with which details,
and the conflicts met. An outline has no numbers, links or edges, so it grows in the same way with
and without a root. Its paths are told apart by how they are written and scopes come first. -/
namespace DecompTracker.Hierarchy

/-- A node without its links. -/
structure Entry where
  path : QualifiedName
  origin : QualifiedName
  details : Option ClassDetails
  deriving DecidableEq

structure Outline where
  entries : List Entry
  conflicts : List Conflict

namespace Outline

def empty : Outline := ⟨[], []⟩

def paths (o : Outline) : List QualifiedName := o.entries.map Entry.path

def find? (o : Outline) (written : String) : Option Entry :=
  o.entries.find? fun e => e.path.joined = written

def report (o : Outline) (c : Conflict) : Outline := { o with conflicts := o.conflicts ++ [c] }

/-- A new path, first met in `origin`. -/
def push (o : Outline) (path origin : QualifiedName) : Outline :=
  { o with entries := o.entries ++ [⟨path, origin, none⟩] }

/-- Enters the missing leads of a name, and tells whether none of them is written like a different
path. -/
def enter (o : Outline) (name : QualifiedName) : List QualifiedName → Outline × Bool
  | [] => (o, true)
  | p :: ps =>
    match o.find? p.joined with
    | some e =>
      if e.path = p then o.enter name ps
      else (o.report (.sharedLead p.joined e.origin name), false)
    | none => (o.push p name).enter name ps

/-- Gives the entry of a class its details. -/
def setDetails (o : Outline) (c : ClassStatus) : Outline :=
  { o with entries := o.entries.map fun e =>
      if e.path = c.name then { e with details := some c.toClassDetails } else e }

def describe (o : Outline) (c : ClassStatus) : Outline :=
  match (o.find? c.name.joined).bind Entry.details with
  | none => o.setDetails c
  | some details =>
    if details = c.toClassDetails then o
    else o.report (.unequalDetails c.name details.status c.status)

def addClass (o : Outline) (c : ClassStatus) : Outline :=
  match o.enter c.name c.name.leads with
  | (o, true) => o.describe c
  | (o, false) => o

def ofClasses (classes : List ClassStatus) : Outline := classes.foldl addClass empty

theorem ofClasses_concat (classes : List ClassStatus) (c : ClassStatus) :
    ofClasses (classes ++ [c]) = (ofClasses classes).addClass c := by
  simp [ofClasses]

theorem mem_paths {o : Outline} {p : QualifiedName} :
    p ∈ o.paths ↔ ∃ e ∈ o.entries, e.path = p :=
  List.mem_map

@[simp] theorem paths_report (o : Outline) (c : Conflict) : (o.report c).paths = o.paths := rfl

@[simp] theorem paths_push (o : Outline) (p origin : QualifiedName) :
    (o.push p origin).paths = o.paths ++ [p] := by
  simp [paths, push]

@[simp] theorem paths_setDetails (o : Outline) (c : ClassStatus) :
    (o.setDetails c).paths = o.paths := by
  simp only [paths, setDetails, List.map_map]
  refine List.map_congr_left fun e _ => ?_
  simp only [Function.comp_apply]
  split <;> rfl

@[simp] theorem paths_describe (o : Outline) (c : ClassStatus) :
    (o.describe c).paths = o.paths := by
  unfold describe
  split
  · exact paths_setDetails o c
  · split <;> simp

/-! Looking up by the written form -/

theorem find?_eq_none_iff {o : Outline} {written : String} :
    o.find? written = none ↔ written ∉ o.paths.map QualifiedName.joined := by
  simp [find?, paths]

theorem mem_of_find?_eq_some {o : Outline} {written : String} {e : Entry}
    (h : o.find? written = some e) : e ∈ o.entries ∧ e.path.joined = written :=
  ⟨List.mem_of_find?_eq_some h, by simpa using List.find?_some h⟩

/-- No two paths are written the same, and the scope of a path stands before it. -/
structure Proper (o : Outline) : Prop where
  distinct : (o.paths.map QualifiedName.joined).Nodup
  scopes : ∀ i p s, o.paths[i]? = some p → p.scope? = some s → s ∈ o.paths.take i

theorem Proper.entry_eq {o : Outline} (ho : o.Proper) {e f : Entry} (he : e ∈ o.entries)
    (hf : f ∈ o.entries) (h : e.path.joined = f.path.joined) : e = f := by
  have hn := ho.distinct
  rw [paths, List.map_map] at hn
  exact List.inj_on_of_nodup_map hn he hf h

theorem Proper.nodup_paths {o : Outline} (ho : o.Proper) : o.paths.Nodup :=
  List.Nodup.of_map _ ho.distinct

theorem Proper.path_eq {o : Outline} (ho : o.Proper) {p q : QualifiedName} (hp : p ∈ o.paths)
    (hq : q ∈ o.paths) (h : p.joined = q.joined) : p = q :=
  List.inj_on_of_nodup_map ho.distinct hp hq h

theorem Proper.find?_eq_some_iff {o : Outline} (ho : o.Proper) {written : String} {e : Entry} :
    o.find? written = some e ↔ e ∈ o.entries ∧ e.path.joined = written := by
  refine ⟨mem_of_find?_eq_some, fun ⟨he, hw⟩ => ?_⟩
  cases hf : o.find? written with
  | none =>
    have := find?_eq_none_iff.mp hf
    exact absurd (List.mem_map.mpr ⟨e.path, mem_paths.mpr ⟨e, he, rfl⟩, hw⟩) this
  | some f =>
    obtain ⟨hf, hfw⟩ := mem_of_find?_eq_some hf
    rw [ho.entry_eq hf he (hfw.trans hw.symm)]

theorem Proper.scope_mem {o : Outline} (ho : o.Proper) {p s : QualifiedName} (hp : p ∈ o.paths)
    (hs : p.scope? = some s) : s ∈ o.paths := by
  obtain ⟨i, hi⟩ := List.mem_iff_getElem?.mp hp
  exact List.mem_of_mem_take (ho.scopes i p s hi hs)

theorem Proper.lead_mem {o : Outline} (ho : o.Proper) {p q : QualifiedName} (hq : q ∈ o.paths)
    (h : p.IsLeadOf q) : p ∈ o.paths := by
  induction hn : q.length generalizing q with
  | zero =>
    have := q.length_pos
    omega
  | succ n ih =>
    rcases h.eq_or_scope with rfl | ⟨s, hs, hps⟩
    · exact hq
    · have hlen := QualifiedName.length_of_scope?_eq_some hs
      exact ih (ho.scope_mem hq hs) hps (by omega)

/-! Properness is kept -/

theorem proper_empty : empty.Proper := ⟨by simp [empty, paths], by simp [empty, paths]⟩

theorem Proper.of_paths_eq {o o' : Outline} (ho : o.Proper) (h : o'.paths = o.paths) :
    o'.Proper := ⟨h ▸ ho.distinct, h ▸ ho.scopes⟩

theorem distinct_push {o : Outline} {p : QualifiedName} (origin : QualifiedName)
    (ho : (o.paths.map QualifiedName.joined).Nodup)
    (hp : p.joined ∉ o.paths.map QualifiedName.joined) :
    ((o.push p origin).paths.map QualifiedName.joined).Nodup := by
  rw [paths_push, List.map_append, List.map_singleton]
  refine List.nodup_append.mpr ⟨ho, by simp, ?_⟩
  simpa using fun q hq => ne_of_mem_of_not_mem (List.mem_map_of_mem hq) hp

theorem Proper.push {o : Outline} (ho : o.Proper) {p : QualifiedName} (origin : QualifiedName)
    (hp : p.joined ∉ o.paths.map QualifiedName.joined)
    (hs : ∀ s, p.scope? = some s → s ∈ o.paths) : (o.push p origin).Proper where
  distinct := distinct_push origin ho.distinct hp
  scopes i q s hi hq := by
    rw [paths_push] at hi ⊢
    rcases getElem?_concat_eq_some_iff.mp hi with hi | ⟨rfl, rfl⟩
    · rw [List.take_append_of_le_length (List.getElem?_eq_some_iff.mp hi).1.le]
      exact ho.scopes i q s hi hq
    · simpa using hs s hq

theorem Proper.enter {o : Outline} (ho : o.Proper) (name : QualifiedName)
    {s? : Option QualifiedName} {ps : List QualifiedName} (hps : QualifiedName.Descent s? ps)
    (hs : ∀ s, s? = some s → s ∈ o.paths) : (o.enter name ps).1.Proper := by
  induction ps generalizing o s? with
  | nil => exact ho
  | cons p ps ih =>
    obtain ⟨hp, hps⟩ := hps
    rw [Outline.enter]
    split
    · rename_i e he
      split
      · rename_i hep
        refine ih ho hps fun s hs => ?_
        obtain rfl := Option.some.inj hs
        exact mem_paths.mpr ⟨e, (mem_of_find?_eq_some he).1, hep⟩
      · exact ho.of_paths_eq (paths_report _ _)
    · rename_i he
      refine ih (ho.push name (find?_eq_none_iff.mp he) (hp ▸ hs)) hps fun s hs => ?_
      obtain rfl := Option.some.inj hs
      simp

theorem Proper.addClass {o : Outline} (ho : o.Proper) (c : ClassStatus) :
    (o.addClass c).Proper := by
  have he := ho.enter c.name (QualifiedName.descent_leads c.name) (by simp)
  unfold Outline.addClass
  split <;> rename_i o' hr <;> rw [hr] at he
  · exact he.of_paths_eq (paths_describe _ _)
  · exact he

theorem proper_ofClasses (classes : List ClassStatus) : (ofClasses classes).Proper := by
  induction classes using List.reverseRecOn with
  | nil => exact proper_empty
  | append_singleton classes c ih =>
    rw [ofClasses_concat]
    exact ih.addClass c

end Outline

end DecompTracker.Hierarchy
