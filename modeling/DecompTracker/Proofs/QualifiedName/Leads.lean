import DecompTracker.QualifiedName
import Mathlib.Data.List.Induction
import Mathlib.Data.List.Infix
import Mathlib.Data.List.Nodup

/-! Leading parts of names. The leads of a name are exactly its non-empty beginnings, no two of them
are written the same, and each but the first lies in the one before it. -/
namespace DecompTracker.QualifiedName

/-- A name is made of the first segments of another one. -/
def IsLeadOf (p name : QualifiedName) : Prop := p.segments <+: name.segments

instance (p name : QualifiedName) : Decidable (p.IsLeadOf name) :=
  inferInstanceAs (Decidable (p.segments <+: name.segments))

/-- The scope a name lies in directly; outermost names lie in none. -/
def scope? (name : QualifiedName) : Option QualifiedName :=
  if h : name.segments.dropLast = [] then none else some ⟨name.segments.dropLast, h⟩

theorem IsLeadOf.refl (name : QualifiedName) : name.IsLeadOf name := List.prefix_rfl

theorem IsLeadOf.trans {p q r : QualifiedName} (hpq : p.IsLeadOf q) (hqr : q.IsLeadOf r) :
    p.IsLeadOf r :=
  List.IsPrefix.trans hpq hqr

theorem IsLeadOf.length_le {p q : QualifiedName} (h : p.IsLeadOf q) : p.length ≤ q.length :=
  List.IsPrefix.length_le h

/-- Leads of one name are leads of one another. -/
theorem IsLeadOf.total {p q name : QualifiedName} (hp : p.IsLeadOf name) (hq : q.IsLeadOf name) :
    p.IsLeadOf q ∨ q.IsLeadOf p :=
  List.prefix_or_prefix_of_prefix hp hq

theorem IsLeadOf.eq_of_length {p q name : QualifiedName} (hp : p.IsLeadOf name)
    (hq : q.IsLeadOf name) (h : p.length = q.length) : p = q := by
  rcases hp.total hq with hpq | hqp
  · exact eq_of_segments_eq (List.IsPrefix.eq_of_length hpq h)
  · exact (eq_of_segments_eq (List.IsPrefix.eq_of_length hqp h.symm)).symm

/-! Scopes -/

theorem scope?_eq_some_iff {name s : QualifiedName} :
    name.scope? = some s ↔ ∃ short, name.segments = s.segments ++ [short] := by
  unfold scope?
  split
  · rename_i h
    simp only [reduceCtorEq, false_iff, not_exists]
    intro short hs
    exact s.segments_ne_nil (by simpa [hs] using h)
  · rename_i h
    rw [Option.some.injEq]
    constructor
    · rintro rfl
      exact ⟨name.last, (List.dropLast_append_getLast name.segments_ne_nil).symm⟩
    · rintro ⟨short, hs⟩
      exact eq_of_segments_eq (by simp [hs])

theorem length_of_scope?_eq_some {name s : QualifiedName} (h : name.scope? = some s) :
    name.length = s.length + 1 := by
  obtain ⟨short, hs⟩ := scope?_eq_some_iff.mp h
  simp [length, hs]

theorem scope?_eq_none_iff {name : QualifiedName} : name.scope? = none ↔ name.length = 1 := by
  have hpos := name.length_pos
  unfold scope?
  split
  · rename_i h
    have hlen := congrArg List.length h
    simp only [List.length_dropLast, List.length_nil] at hlen
    simp only [length] at hpos ⊢
    simp only [true_iff]
    omega
  · rename_i h
    have hlen : 0 < name.segments.dropLast.length := List.length_pos_iff.mpr h
    simp only [List.length_dropLast] at hlen
    simp only [reduceCtorEq, false_iff, length]
    omega

theorem isSome_scope?_iff {name : QualifiedName} : name.scope?.isSome ↔ 2 ≤ name.length := by
  have hpos := name.length_pos
  cases hs : name.scope? with
  | none => simp [scope?_eq_none_iff.mp hs]
  | some s =>
    have := length_of_scope?_eq_some hs
    have := s.length_pos
    simp only [Option.isSome_some, true_iff]
    omega

theorem isLeadOf_of_scope? {name s : QualifiedName} (h : name.scope? = some s) :
    s.IsLeadOf name := by
  obtain ⟨short, hs⟩ := scope?_eq_some_iff.mp h
  exact ⟨[short], hs.symm⟩

theorem scope?_ne_self {name : QualifiedName} : name.scope? ≠ some name := by
  intro h
  have := length_of_scope?_eq_some h
  omega

/-- A name lies in a scope, or in none, when a lead of it does so directly. -/
def LiesIn (name : QualifiedName) (s? : Option QualifiedName) : Prop :=
  ∃ p : QualifiedName, p.scope? = s? ∧ p.IsLeadOf name

theorem liesIn_some_iff {name s : QualifiedName} :
    name.LiesIn (some s) ↔ s.IsLeadOf name ∧ s ≠ name := by
  constructor
  · rintro ⟨p, hs, hp⟩
    refine ⟨(isLeadOf_of_scope? hs).trans hp, ?_⟩
    rintro rfl
    have := hp.length_le
    have := length_of_scope?_eq_some hs
    omega
  · rintro ⟨⟨rest, hrest⟩, hne⟩
    cases rest with
    | nil => exact absurd (eq_of_segments_eq (by simpa using hrest)) hne
    | cons short rest =>
      refine ⟨⟨s.segments ++ [short], by simp⟩, scope?_eq_some_iff.mpr ⟨short, rfl⟩, rest, ?_⟩
      simpa using hrest

theorem liesIn_none (name : QualifiedName) : name.LiesIn none := by
  refine ⟨⟨[name.topLevel], by simp⟩, scope?_eq_none_iff.mpr rfl, name.segments.tail, ?_⟩
  simp [topLevel]

/-- A lead of a name is the name or a lead of its scope. -/
theorem IsLeadOf.eq_or_scope {p name : QualifiedName} (h : p.IsLeadOf name) :
    p = name ∨ ∃ s, name.scope? = some s ∧ p.IsLeadOf s := by
  obtain ⟨rest, hrest⟩ := h
  induction rest using List.reverseRecOn with
  | nil => exact .inl (eq_of_segments_eq (by simpa using hrest))
  | append_singleton rest short _ =>
    have hs : p.segments ++ rest ≠ [] := by simp [p.segments_ne_nil]
    exact .inr ⟨⟨p.segments ++ rest, hs⟩, scope?_eq_some_iff.mpr ⟨short, by simp [← hrest]⟩,
      rest, rfl⟩

/-- Leads of one name that lie in the same scope are the same. -/
theorem IsLeadOf.eq_of_scope?_eq {p q name : QualifiedName} (hp : p.IsLeadOf name)
    (hq : q.IsLeadOf name) (h : p.scope? = q.scope?) : p = q := by
  apply hp.eq_of_length hq
  cases hs : p.scope? with
  | none => rw [scope?_eq_none_iff.mp hs, scope?_eq_none_iff.mp (h.symm.trans hs)]
  | some s => rw [length_of_scope?_eq_some hs, length_of_scope?_eq_some (h.symm.trans hs)]

/-! The list of all leads -/

theorem mem_leads {p name : QualifiedName} : p ∈ name.leads ↔ p.IsLeadOf name := by
  simp only [leads, List.mem_map, List.mem_range]
  constructor
  · rintro ⟨depth, -, rfl⟩
    exact List.take_prefix _ _
  · intro h
    have hp := p.length_pos
    refine ⟨p.length - 1, ?_, eq_of_segments_eq ?_⟩
    · have := h.length_le
      omega
    · have hd : p.length - 1 + 1 = p.segments.length := Nat.sub_add_cancel hp
      simp only [lead, hd]
      exact (List.prefix_iff_eq_take.mp h).symm

theorem length_lead {name : QualifiedName} {depth : Nat} (h : depth < name.length) :
    (name.lead depth).length = depth + 1 := by
  simp only [length] at h
  simp only [length, lead, List.length_take]
  omega

theorem lead_length_sub_one (name : QualifiedName) : name.lead (name.length - 1) = name := by
  have h : name.length - 1 + 1 = name.segments.length := Nat.sub_add_cancel name.length_pos
  exact eq_of_segments_eq (by simp [lead, h])

theorem scope?_lead_zero (name : QualifiedName) : (name.lead 0).scope? = none :=
  scope?_eq_none_iff.mpr (length_lead name.length_pos)

theorem scope?_lead_succ {name : QualifiedName} {depth : Nat} (h : depth + 1 < name.length) :
    (name.lead (depth + 1)).scope? = some (name.lead depth) :=
  scope?_eq_some_iff.mpr ⟨name.segments[depth + 1], (List.take_concat_get' _ _ h).symm⟩

theorem nodup_leads (name : QualifiedName) : name.leads.Nodup := by
  refine List.Nodup.map_on ?_ List.nodup_range
  intro i hi j hj h
  have hl := congrArg length h
  rw [length_lead (List.mem_range.mp hi), length_lead (List.mem_range.mp hj)] at hl
  omega

theorem getLast?_leads (name : QualifiedName) : name.leads.getLast? = some name := by
  have hpos : name.length ≠ 0 := Nat.pos_iff_ne_zero.mp name.length_pos
  simp [leads, List.getLast?_range, hpos, lead_length_sub_one]

/-- A way down: the first name lies in the given scope and each further one in the one before. -/
def Descent : Option QualifiedName → List QualifiedName → Prop
  | _, [] => True
  | s?, p :: ps => p.scope? = s? ∧ Descent (some p) ps

private theorem descent_range' (name : QualifiedName) (count depth : Nat)
    (h : depth + 1 + count ≤ name.length) :
    Descent (some (name.lead depth)) ((List.range' (depth + 1) count).map name.lead) := by
  induction count generalizing depth with
  | zero => trivial
  | succ count ih => exact ⟨scope?_lead_succ (by omega), ih (depth + 1) (by omega)⟩

theorem descent_leads (name : QualifiedName) : Descent none name.leads := by
  have hpos := name.length_pos
  obtain ⟨count, hcount⟩ : ∃ count, name.length = count + 1 := ⟨name.length - 1, by omega⟩
  rw [leads, hcount, List.range_eq_range', List.range'_succ]
  exact ⟨scope?_lead_zero name, descent_range' name count 0 (by omega)⟩

/-! Written forms of leads -/

theorem joined_of_segments_eq_append {p name : QualifiedName} {rest : List String}
    (h : name.segments = p.segments ++ rest) (hrest : rest ≠ []) :
    name.joined = p.joined ++ separator ++ separator.intercalate rest := by
  rw [joined, h, String.intercalate_append_of_ne_nil p.segments_ne_nil hrest, joined]

/-- A longer lead is written longer, since at least a separator comes in between. -/
theorem IsLeadOf.length_joined_lt {p q : QualifiedName} (h : p.IsLeadOf q) (hne : p ≠ q) :
    p.joined.length < q.joined.length := by
  obtain ⟨rest, hrest⟩ := h
  have hnil : rest ≠ [] := by
    rintro rfl
    exact hne (eq_of_segments_eq (by simpa using hrest))
  have hsep : separator.length = 2 := rfl
  simp only [joined_of_segments_eq_append hrest.symm hnil, String.length_append, hsep]
  omega

/-- The leads of one name are told apart by how they are written. -/
theorem IsLeadOf.eq_of_joined_eq {p q name : QualifiedName} (hp : p.IsLeadOf name)
    (hq : q.IsLeadOf name) (h : p.joined = q.joined) : p = q := by
  by_contra hne
  rcases hp.total hq with hpq | hqp
  · have := hpq.length_joined_lt hne
    rw [h] at this
    omega
  · have := hqp.length_joined_lt (Ne.symm hne)
    rw [h] at this
    omega

end DecompTracker.QualifiedName
