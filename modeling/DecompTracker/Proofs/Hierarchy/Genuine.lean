import DecompTracker.Proofs.Hierarchy.Reporting
import DecompTracker.Proofs.Hierarchy.Runs

/-! Why a run fails. Each call reports at most one conflict, calls report in their order, and what a
call reports is a conflict of its class with one added before, be it one that was given up. -/
namespace DecompTracker.Hierarchy

namespace Draft

/-- The conflicts that the call at this place reports. -/
def reported (d : Draft) (calls : List Call) (i : Nat) : List Conflict :=
  (d.run (calls.take (i + 1))).conflicts.toList.drop (d.run (calls.take i)).conflicts.size

/-! One more call -/

theorem conflicts_run (rooted : Bool) (calls : List Call) :
    ((start rooted).run calls).conflicts.toList =
      (Outline.ofClasses (addedClasses calls)).conflicts :=
  congrArg Outline.conflicts (grown_run rooted calls).outline

theorem exists_conflicts_concat (rooted : Bool) (calls : List Call) (call : Call) :
    ∃ new : List Conflict,
      ((start rooted).run (calls ++ [call])).conflicts.toList =
        ((start rooted).run calls).conflicts.toList ++ new ∧
      new.length ≤ 1 ∧
      ∀ x ∈ new, ∃ c, call = .addClass c ∧ x.GenuineFor (addedClasses calls) c := by
  simp only [conflicts_run, addedClasses_concat]
  cases call with
  | addDependencies name targets => exact ⟨[], by simp [Call.class?], by simp, by simp⟩
  | addClass c =>
    obtain ⟨v, hv, hc⟩ := Outline.outcome_concat (addedClasses calls) c
    refine ⟨v.toList, hc, ?_, fun x hx => ⟨c, rfl, ?_⟩⟩
    · cases v <;> simp
    · obtain rfl := Option.mem_toList.mp hx
      exact (Outline.traced_ofClasses _).genuineFor hv

theorem run_take_succ (d : Draft) {calls : List Call} {i : Nat} {call : Call}
    (h : calls[i]? = some call) :
    d.run (calls.take (i + 1)) = d.run (calls.take i ++ [call]) := by
  rw [List.take_add_one, h, Option.toList_some]

/-! All calls -/

theorem reported_genuine (rooted : Bool) {calls : List Call} {i : Nat} {call : Call}
    (h : calls[i]? = some call) :
    ((start rooted).reported calls i).length ≤ 1 ∧
      ∀ x ∈ (start rooted).reported calls i, ∃ c, call = .addClass c ∧
        x.GenuineFor (addedClasses (calls.take i)) c := by
  obtain ⟨new, hconflicts, hlen, hgenuine⟩ :=
    exists_conflicts_concat rooted (calls.take i) call
  have hnew : (start rooted).reported calls i = new := by
    rw [reported, run_take_succ _ h, hconflicts, ← Array.length_toList, List.drop_left]
  rw [hnew]
  exact ⟨hlen, hgenuine⟩

theorem reported_append (d : Draft) (calls more : List Call) {i : Nat} (h : i < calls.length) :
    d.reported (calls ++ more) i = d.reported calls i := by
  rw [reported, List.take_append_of_le_length h, List.take_append_of_le_length h.le, reported]

theorem conflicts_run_eq_flatMap (rooted : Bool) (calls : List Call) :
    ((start rooted).run calls).conflicts.toList =
      (List.range calls.length).flatMap ((start rooted).reported calls) := by
  induction calls using List.reverseRecOn with
  | nil => exact conflicts_run rooted []
  | append_singleton calls call ih =>
    obtain ⟨new, hconflicts, -⟩ := exists_conflicts_concat rooted calls call
    have hlast : (start rooted).reported (calls ++ [call]) calls.length = new := by
      have hwhole : (calls ++ [call]).take (calls.length + 1) = calls ++ [call] :=
        List.take_of_length_le (by simp)
      rw [reported, hwhole, List.take_left, hconflicts, ← Array.length_toList, List.drop_left]
    have hold : (List.range calls.length).flatMap ((start rooted).reported (calls ++ [call])) =
        (List.range calls.length).flatMap ((start rooted).reported calls) :=
      List.flatMap_congr fun i hi => reported_append _ _ _ (List.mem_range.mp hi)
    rw [hconflicts, ih, List.length_append, List.length_singleton, List.range_succ,
      List.flatMap_append, hold, List.flatMap_singleton, hlast]

theorem conflicts_of_checked_eq_error {α : Type} {d : Draft} {a : α} {e : Inconsistency}
    (h : d.checked a = .error e) : e.conflicts = d.conflicts.toList := by
  rw [checked] at h
  split at h
  · simp at h
  · rw [← Except.error.inj h]

end Draft

/-- The conflicts of a failed run, told call by call. -/
structure Inconsistency.Genuine (e : Inconsistency) (rooted : Bool) (calls : List Call) : Prop where
  order : e.conflicts = (List.range calls.length).flatMap ((Draft.start rooted).reported calls)
  single : ∀ i call, calls[i]? = some call → ((Draft.start rooted).reported calls i).length ≤ 1
  genuine : ∀ i call, calls[i]? = some call → ∀ x ∈ (Draft.start rooted).reported calls i,
    ∃ c, call = .addClass c ∧ x.GenuineFor (addedClasses (calls.take i)) c

/-- A failed run reports genuine conflicts only. -/
theorem run_conflicts_genuine {rooted : Bool} {calls : List Call} {e : Inconsistency}
    (h : ((Draft.start rooted).run calls).toTree = .error e ∨
      ((Draft.start rooted).run calls).toGraph = .error e) : e.Genuine rooted calls where
  order := by
    rw [← Draft.conflicts_run_eq_flatMap]
    rcases h with h | h
    · exact Draft.conflicts_of_checked_eq_error h
    · exact Draft.conflicts_of_checked_eq_error h
  single _ _ hcall := (Draft.reported_genuine rooted hcall).1
  genuine _ _ hcall := (Draft.reported_genuine rooted hcall).2

/-- The second class is given up at `x::a::b`, but not before it made the node of its `x::a`, which is
in the way of the third one. -/
def tangledCalls : List Call :=
  [.addClass (.undecompiled (.ofSegments ["x", "a::b", "c"])),
    .addDependencies (.ofSegments ["x", "a::b", "c"]) [.ofSegments ["x"]],
    .addClass (.undecompiled (.ofSegments ["x", "a", "b"])),
    .addClass (.undecompiled (.ofSegments ["x::a", "d"])),
    .addDependencies (.ofSegments ["x", "a", "b"]) [.ofSegments ["x", "a::b", "c"]],
    .addClass ⟨⟨.partly, 4, 96⟩, .ofSegments ["x", "a::b", "c"]⟩]

def tangledError : Inconsistency :=
  ⟨[.sharedLead "x::a::b" (.ofSegments ["x", "a::b", "c"]) (.ofSegments ["x", "a", "b"]),
    .sharedLead "x::a" (.ofSegments ["x", "a", "b"]) (.ofSegments ["x::a", "d"]),
    .unequalDetails (.ofSegments ["x", "a::b", "c"]) .undecompiled .partly]⟩

theorem run_conflicts_genuine_tangledCalls :
    ((Draft.start true).run tangledCalls).toTree = .error tangledError ∧
      tangledError.Genuine true tangledCalls := by
  have hconflicts : (Outline.ofClasses (addedClasses tangledCalls)).conflicts =
      tangledError.conflicts := by
    decide
  have h : ((Draft.start true).run tangledCalls).toTree = .error tangledError := by
    rw [Draft.toTree, Draft.checked_eq, (Draft.grown_run true tangledCalls).outline, hconflicts]
    rfl
  exact ⟨h, run_conflicts_genuine (.inl h)⟩

end DecompTracker.Hierarchy
