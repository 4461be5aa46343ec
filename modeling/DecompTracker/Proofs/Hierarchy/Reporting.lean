import DecompTracker.Proofs.Hierarchy.Consistency
import DecompTracker.Proofs.Hierarchy.Outcome

/-! Which classes a failed build names. Classes that are kept do not conflict, so of two conflicting
classes at least one is refused and reported. The later one is reported when the earlier one was
kept; when that one was refused too, the later one may go unmentioned. -/
namespace DecompTracker.Hierarchy

/-- The class whose addition showed a conflict. -/
def Conflict.incoming : Conflict → QualifiedName
  | sharedLead _ _ incoming => incoming
  | unequalDetails name _ _ => name

def Inconsistency.Reports (e : Inconsistency) (name : QualifiedName) : Prop :=
  ∃ x ∈ e.conflicts, x.incoming = name

instance (e : Inconsistency) (name : QualifiedName) : Decidable (e.Reports name) :=
  inferInstanceAs (Decidable (∃ x ∈ e.conflicts, x.incoming = name))

/-- A conflict that shows when `c` is added after the classes `before`, with one of them. -/
def Conflict.GenuineFor (before : List ClassStatus) (c : ClassStatus) : Conflict → Prop
  | sharedLead written existing incoming =>
    incoming = c.name ∧ (∃ z ∈ before, z.name = existing) ∧
      ∃ p q : QualifiedName, p.IsLeadOf existing ∧ q.IsLeadOf incoming ∧ p.joined = written ∧
        q.joined = written ∧ p.segments ≠ q.segments
  | unequalDetails name existing incoming =>
    name = c.name ∧ incoming = c.status ∧
      ∃ z ∈ before, z.name = name ∧ z.status = existing ∧ z.toClassDetails ≠ c.toClassDetails

theorem Conflict.GenuineFor.exists_conflicts {before : List ClassStatus} {c : ClassStatus}
    {x : Conflict} (h : x.GenuineFor before c) : ∃ z ∈ before, z.Conflicts c := by
  cases x with
  | sharedLead written existing incoming =>
    obtain ⟨rfl, ⟨z, hz, rfl⟩, p, q, hp, hq, hpw, hqw, hne⟩ := h
    exact ⟨z, hz, .inl ⟨p, q, hp, hq, hpw.trans hqw.symm, fun hpq => hne (by rw [hpq])⟩⟩
  | unequalDetails name existing incoming =>
    obtain ⟨rfl, -, z, hz, hzn, -, hne⟩ := h
    exact ⟨z, hz, .inr ⟨hzn, hne⟩⟩

namespace Outline

variable {o : Outline}

theorem Outcome.incoming_eq {c : ClassStatus} {x : Conflict} (h : o.Outcome c (some x)) :
    x.incoming = c.name := by
  cases h <;> rfl

theorem Outcome.not_conflicts (ho : o.Proper) {x y : ClassStatus} (hx : o.Outcome x none)
    (hy : o.Outcome y none) : ¬ x.Conflicts y := by
  cases hx with
  | present he hp hd =>
    cases hy with
    | present he' hp' hd' =>
      intro h
      rcases h with ⟨p, q, hpx, hqy, hj, hne⟩ | ⟨hn, hne⟩
      · have hpo : p ∈ o.paths := ho.lead_mem (mem_paths.mpr ⟨_, he, hp⟩) hpx
        have hqo : q ∈ o.paths := ho.lead_mem (mem_paths.mpr ⟨_, he', hp'⟩) hqy
        exact hne (ho.path_eq hpo hqo hj)
      · have hsame := ho.entry_eq he he' (by rw [hp, hp', hn])
        rw [hsame, hd'] at hd
        exact hne (Option.some.inj hd).symm

/-! Where entries come from -/

/-- Entries are leads of the classes that made them, and details are those of a class. -/
structure Traced (o : Outline) (classes : List ClassStatus) : Prop where
  origin : ∀ e ∈ o.entries, e.path.IsLeadOf e.origin ∧ ∃ z ∈ classes, z.name = e.origin
  details : ∀ e ∈ o.entries, ∀ x, e.details = some x →
    ∃ z ∈ classes, z.name = e.path ∧ z.toClassDetails = x

theorem traced_empty : empty.Traced [] := ⟨by simp [empty], by simp [empty]⟩

theorem Traced.append {classes : List ClassStatus} (h : o.Traced classes)
    (more : List ClassStatus) : o.Traced (classes ++ more) where
  origin e he := by
    obtain ⟨hl, z, hz, hn⟩ := h.origin e he
    exact ⟨hl, z, List.mem_append_left _ hz, hn⟩
  details e he x hx := by
    obtain ⟨z, hz, hn⟩ := h.details e he x hx
    exact ⟨z, List.mem_append_left _ hz, hn⟩

theorem Traced.push {classes : List ClassStatus} (h : o.Traced classes) {c : ClassStatus}
    (hc : c ∈ classes) {p : QualifiedName} (hp : p.IsLeadOf c.name) :
    (o.push p c.name).Traced classes where
  origin e he := by
    rcases List.mem_append.mp he with he | he
    · exact h.origin e he
    · obtain rfl := List.mem_singleton.mp he
      exact ⟨hp, c, hc, rfl⟩
  details e he x hx := by
    rcases List.mem_append.mp he with he | he
    · exact h.details e he x hx
    · obtain rfl := List.mem_singleton.mp he
      simp at hx

theorem Traced.enter {classes : List ClassStatus} (h : o.Traced classes) {c : ClassStatus}
    (hc : c ∈ classes) {ps : List QualifiedName} (hps : ∀ p ∈ ps, p.IsLeadOf c.name) :
    (o.enter c.name ps).1.Traced classes := by
  induction ps generalizing o with
  | nil => exact h
  | cons p ps ih =>
    obtain ⟨hp, hps⟩ := List.forall_mem_cons.mp hps
    rw [Outline.enter]
    split
    · split
      · exact ih h hps
      · exact ⟨h.origin, h.details⟩
    · exact ih (h.push hc hp) hps

theorem Traced.describe {classes : List ClassStatus} (h : o.Traced classes) {c : ClassStatus}
    (hc : c ∈ classes) : (o.describe c).Traced classes := by
  unfold Outline.describe
  split
  · constructor
    · intro e he
      obtain ⟨f, hf, rfl⟩ := List.mem_map.mp he
      have hf := h.origin f hf
      split <;> exact hf
    · intro e he x hx
      obtain ⟨f, hf, rfl⟩ := List.mem_map.mp he
      split at hx <;> rename_i hp
      · simp only [hp, if_true]
        exact ⟨c, hc, rfl, Option.some.inj hx⟩
      · simp only [hp, if_false]
        exact h.details f hf x hx
  · split
    · exact h
    · exact ⟨h.origin, h.details⟩

theorem traced_ofClasses (classes : List ClassStatus) : (ofClasses classes).Traced classes := by
  induction classes using List.reverseRecOn with
  | nil => exact traced_empty
  | append_singleton classes c ih =>
    have hc : c ∈ classes ++ [c] := by simp
    have he := (ih.append [c]).enter hc fun p hp => QualifiedName.mem_leads.mp hp
    rw [ofClasses_concat, Outline.addClass]
    split <;> rename_i o' hr <;> rw [hr] at he
    · exact he.describe hc
    · exact he

/-- A class is refused only for a conflict with one that came before it. -/
theorem Traced.genuineFor {classes : List ClassStatus} {c : ClassStatus}
    (h : o.Traced (classes ++ [c])) {x : Conflict} (hx : o.Outcome c (some x)) :
    x.GenuineFor classes c := by
  cases hx with
  | @blocked _ _ p e hl hn hb =>
    obtain ⟨hlead, z, hz, hzn⟩ := h.origin e hb.mem
    have hp : p.IsLeadOf c.name := QualifiedName.mem_leads.mp (by simp [hl])
    refine ⟨rfl, ?_, e.path, p, hlead, hp, hb.joined, rfl, fun hs =>
      hb.ne (QualifiedName.eq_of_segments_eq hs)⟩
    rcases List.mem_append.mp hz with hz | hz
    · exact ⟨z, hz, hzn⟩
    · obtain rfl := List.mem_singleton.mp hz
      have hself : z.Conflicts z := .inl ⟨e.path, p, hzn ▸ hlead, hp, hb.joined, hb.ne⟩
      exact absurd hself z.not_conflicts_self
  | @unequal e x he hp hd hne =>
    obtain ⟨z, hz, hzn, rfl⟩ := h.details e he x hd
    rcases List.mem_append.mp hz with hz | hz
    · exact ⟨rfl, rfl, z, hz, hzn.trans hp, rfl, hne⟩
    · obtain rfl := List.mem_singleton.mp hz
      exact absurd rfl hne

/-! What a run reports -/

theorem present_of_prefix {before after : List ClassStatus} {c : ClassStatus}
    (h : ∀ z ∈ before, ¬ z.Conflicts c) : (ofClasses (before ++ c :: after)).Outcome c none := by
  induction after using List.reverseRecOn with
  | nil =>
    obtain ⟨v, hv, -⟩ := outcome_concat before c
    cases v with
    | none => exact hv
    | some x =>
      obtain ⟨z, hz, hzc⟩ := ((traced_ofClasses (before ++ [c])).genuineFor hv).exists_conflicts
      exact absurd hzc (h z hz)
  | append_singleton after d ih =>
    have hext := extends_concat (before ++ c :: after) d
    rw [List.append_assoc] at hext
    exact ih.mono hext

theorem reports_of_outcome {classes : List ClassStatus} {c : ClassStatus} {x : Conflict}
    (h : (ofClasses classes).Outcome c (some x)) (hx : x ∈ (ofClasses classes).conflicts) :
    (⟨(ofClasses classes).conflicts⟩ : Inconsistency).Reports c.name :=
  ⟨x, hx, h.incoming_eq⟩

/-- A class that conflicts with one that is present is reported. -/
theorem reports_of_present {classes : List ClassStatus} {x y : ClassStatus} (hy : y ∈ classes)
    (hx : (ofClasses classes).Outcome x none) (h : x.Conflicts y) :
    (⟨(ofClasses classes).conflicts⟩ : Inconsistency).Reports y.name := by
  obtain ⟨v, hv, hmem⟩ := exists_outcome_of_mem hy
  cases v with
  | none => exact absurd h (hx.not_conflicts (proper_ofClasses classes) hv)
  | some conflict => exact reports_of_outcome hv (hmem conflict rfl)

end Outline

/-- No conflict is passed over: one of its two classes is reported, and the later one is when the
earlier one conflicts with nothing before it. -/
structure Inconsistency.Covers (e : Inconsistency) (classes : List ClassStatus) : Prop where
  pair : ∀ x ∈ classes, ∀ y ∈ classes, x.Conflicts y → e.Reports x.name ∨ e.Reports y.name
  later : ∀ (i j : Nat) (x y : ClassStatus), i < j → classes[i]? = some x → classes[j]? = some y →
    x.Conflicts y → (∀ z ∈ classes.take i, ¬ z.Conflicts x) → e.Reports y.name

theorem covers_conflicts_ofClasses (classes : List ClassStatus) :
    (⟨(Outline.ofClasses classes).conflicts⟩ : Inconsistency).Covers classes where
  pair x hx y hy h := by
    obtain ⟨v, hv, hmem⟩ := Outline.exists_outcome_of_mem hx
    cases v with
    | none => exact .inr (Outline.reports_of_present hy hv h)
    | some conflict => exact .inl (Outline.reports_of_outcome hv (hmem conflict rfl))
  later i j x y _ hx hy h hfirst := by
    obtain ⟨hi, rfl⟩ := List.getElem?_eq_some_iff.mp hx
    have hsplit : classes.take i ++ classes[i] :: classes.drop (i + 1) = classes := by simp
    have hpresent : (Outline.ofClasses (classes.take i ++ classes[i] :: classes.drop (i + 1))).Outcome
        classes[i] none := Outline.present_of_prefix hfirst
    rw [hsplit] at hpresent
    exact Outline.reports_of_present (List.mem_of_getElem? hy) hpresent h

theorem eq_conflicts_of_error {classes : List ClassStatus} {dependencies : DependencyMap}
    {e : Inconsistency} (h : Tree.ofClasses classes = .error e ∨
      Graph.ofClasses classes dependencies = .error e) :
    e = ⟨(Outline.ofClasses classes).conflicts⟩ := by
  rw [Tree.ofClasses_eq, Graph.ofClasses_eq] at h
  by_cases hc : (Outline.ofClasses classes).conflicts = [] <;> simp [hc] at h
  exact h.symm

/-- A failed build covers all conflicts of its classes. -/
theorem ofClasses_covers {classes : List ClassStatus} {dependencies : DependencyMap}
    {e : Inconsistency} (h : Tree.ofClasses classes = .error e ∨
      Graph.ofClasses classes dependencies = .error e) : e.Covers classes := by
  rw [eq_conflicts_of_error h]
  exact covers_conflicts_ofClasses classes

/-- The second class is refused at `a::b`, so its `a::b::c` is never entered and the third class,
which has another one, finds nothing in its way. -/
def hiddenConflict : List ClassStatus :=
  [.undecompiled (.ofSegments ["a", "b"]), .undecompiled (.ofSegments ["a::b", "c"]),
    .undecompiled (.ofSegments ["a", "b::c"])]

def hiddenConflictError : Inconsistency :=
  ⟨[.sharedLead "a::b" (.ofSegments ["a", "b"]) (.ofSegments ["a::b", "c"])]⟩

theorem ofClasses_covers_hiddenConflict :
    Tree.ofClasses hiddenConflict = .error hiddenConflictError ∧
      hiddenConflictError.Covers hiddenConflict := by
  have h : Tree.ofClasses hiddenConflict = .error hiddenConflictError := by
    have hc : (Outline.ofClasses hiddenConflict).conflicts = hiddenConflictError.conflicts := by
      decide
    rw [Tree.ofClasses_eq, hc]
    rfl
  exact ⟨h, ofClasses_covers (Or.inl h : _ ∨ Graph.ofClasses hiddenConflict .empty = _)⟩

/-- The last two classes conflict, and only the first of them is reported. -/
theorem exists_unreported_conflict :
    Tree.ofClasses hiddenConflict = .error hiddenConflictError ∧
      Graph.ofClasses hiddenConflict .empty = .error hiddenConflictError ∧
      ∃ x y, hiddenConflict[1]? = some x ∧ hiddenConflict[2]? = some y ∧ x.Conflicts y ∧
        ¬ hiddenConflictError.Reports y.name := by
  have hc : (Outline.ofClasses hiddenConflict).conflicts = hiddenConflictError.conflicts := by
    decide
  refine ⟨?_, ?_, _, _, rfl, rfl, ?_, ?_⟩
  · rw [Tree.ofClasses_eq, hc]
    rfl
  · rw [Graph.ofClasses_eq, hc]
    rfl
  · decide
  · decide

end DecompTracker.Hierarchy
