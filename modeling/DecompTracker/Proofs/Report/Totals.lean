import DecompTracker.Proofs.SortedMap
import DecompTracker.Proofs.Text.Numeral
import DecompTracker.Report.Summary
import Mathlib.Algebra.GroupWithZero.Nat

/-! Totals of statuses. Counting one class more changes the totals in one place overall and in one
place of one outermost scope, so the totals of a list are what counting over the whole list gives,
and the scopes together add up to the overall counts. -/
namespace DecompTracker

namespace StatusCounts

/-- How many classes have been counted with a status. -/
def count (n : StatusCounts) : StatusKind → Nat
  | .undecompiled => n.undecompiled
  | .partly => n.partly
  | .decompiled => n.decompiled

@[simp] theorem count_zero (kind : StatusKind) : zero.count kind = 0 := by cases kind <;> rfl

@[simp] theorem count_record (n : StatusCounts) (status kind : StatusKind) :
    (n.record status).count kind = n.count kind + if status = kind then 1 else 0 := by
  cases status <;> cases kind <;> rfl

/-- Counts by status add up to the number of all classes counted. -/
theorem total_eq_countP {n : StatusCounts} {statuses : List ClassStatus} {p : ClassStatus → Prop}
    [DecidablePred p]
    (h : ∀ kind, n.count kind = statuses.countP fun c => p c ∧ c.status = kind) :
    n.total = statuses.countP fun c => p c := by
  have hsplit : (statuses.countP fun c => p c ∧ c.status = .undecompiled) +
      (statuses.countP fun c => p c ∧ c.status = .partly) +
      (statuses.countP fun c => p c ∧ c.status = .decompiled) = statuses.countP fun c => p c := by
    clear h
    induction statuses with
    | nil => rfl
    | cons c statuses ih =>
      simp only [List.countP_cons, ← ih]
      cases hc : c.status <;> by_cases hp : p c <;> simp [hp] <;> omega
  rw [← hsplit, ← h, ← h, ← h]
  rfl

end StatusCounts

namespace Summary

/-- The counts of an outermost scope, which are zero where there is no class. -/
def scopeCounts (s : Summary) (scope : String) : StatusCounts :=
  (s.perNamespace.get? scope).getD .zero

/-- The totals are those of some classes, overall and for each outermost scope. -/
structure Tallies (s : Summary) (statuses : List ClassStatus) : Prop where
  classes : s.classes = statuses.length
  counts : ∀ kind, s.counts.count kind = statuses.countP fun c => c.status = kind
  methods : s.methods = (statuses.map fun c => c.methodCount).sum
  totalSize : s.totalSize = min (statuses.map fun c => c.totalSize).sum Text.maxWord
  scopes : ∀ scope, scope ∈ s.perNamespace.keys ↔ ∃ c ∈ statuses, c.name.topLevel = scope
  scopeCounts : ∀ scope kind, (s.scopeCounts scope).count kind =
    statuses.countP fun c => c.name.topLevel = scope ∧ c.status = kind
  sums : ∀ kind, (s.perNamespace.values.map fun n => n.count kind).sum = s.counts.count kind

theorem tallies_empty : empty.Tallies [] := by
  refine ⟨rfl, fun kind => ?_, rfl, rfl, fun scope => ?_, fun scope kind => ?_, fun kind => ?_⟩
  · simp [empty]
  · simp [empty]
  · simp [empty, Summary.scopeCounts]
  · simp [empty, SortedMap.empty, SortedMap.values]

theorem scopeCounts_addStatus (s : Summary) (c : ClassStatus) (scope : String) :
    (s.addStatus c).scopeCounts scope =
      if c.name.topLevel = scope then (s.scopeCounts scope).record c.status
      else s.scopeCounts scope := by
  unfold scopeCounts addStatus
  split
  · rename_i h
    subst h
    rw [SortedMap.get?_update_self, Option.getD_some]
  · rename_i h
    rw [SortedMap.get?_update_of_ne _ _ (Ne.symm h)]

theorem sum_addStatus (s : Summary) (c : ClassStatus) (kind : StatusKind) :
    ((s.addStatus c).perNamespace.values.map fun n => n.count kind).sum =
      (s.perNamespace.values.map fun n => n.count kind).sum + if c.status = kind then 1 else 0 := by
  have hsum := s.perNamespace.sum_values_update c.name.topLevel
    (fun n => (n.getD .zero).record c.status) fun n => n.count kind
  have hpresent : ((s.perNamespace.get? c.name.topLevel).map fun n => n.count kind).getD 0 =
      ((s.perNamespace.get? c.name.topLevel).getD .zero).count kind := by
    cases s.perNamespace.get? c.name.topLevel <;> simp
  rw [StatusCounts.count_record, hpresent] at hsum
  simp only [addStatus]
  omega

/-- Counting one class more. -/
theorem Tallies.addStatus {s : Summary} {statuses : List ClassStatus} (h : s.Tallies statuses)
    (c : ClassStatus) : (s.addStatus c).Tallies (statuses ++ [c]) := by
  refine ⟨?_, fun kind => ?_, ?_, ?_, fun scope => ?_, fun scope kind => ?_, fun kind => ?_⟩
  · simp [Summary.addStatus, h.classes]
  · simp [Summary.addStatus, h.counts, List.countP_append, List.countP_singleton]
  · simp [Summary.addStatus, h.methods]
  · simp [Summary.addStatus, h.totalSize, Text.saturatingAdd_min]
  · rw [Summary.addStatus, SortedMap.mem_keys_update, h.scopes]
    simp only [List.mem_append, List.mem_singleton, or_and_right, exists_or, exists_eq_left]
    rw [or_comm, eq_comm]
  · rw [scopeCounts_addStatus, List.countP_append, List.countP_singleton, ← h.scopeCounts]
    by_cases hs : c.name.topLevel = scope <;> simp [hs]
  · rw [sum_addStatus, h.sums]
    simp [Summary.addStatus]

theorem tallies_ofStatuses (statuses : List ClassStatus) :
    (ofStatuses statuses).Tallies statuses := by
  induction statuses using List.reverseRecOn with
  | nil => exact tallies_empty
  | append_singleton statuses c ih =>
    have hstep : ofStatuses (statuses ++ [c]) = (ofStatuses statuses).addStatus c := by
      simp [ofStatuses]
    rw [hstep]
    exact ih.addStatus c

section totals

variable {s : Summary} {statuses : List ClassStatus}

theorem Tallies.total_counts (h : s.Tallies statuses) : s.counts.total = statuses.length := by
  have htotal : s.counts.total = statuses.countP fun _ => True :=
    StatusCounts.total_eq_countP (p := fun _ => True) (by simpa using h.counts)
  simpa using htotal

theorem Tallies.total_scope (h : s.Tallies statuses) {scope : String} {n : StatusCounts}
    (hn : s.perNamespace.get? scope = some n) :
    n.total = statuses.countP fun c => c.name.topLevel = scope := by
  refine StatusCounts.total_eq_countP fun kind => ?_
  have hcount := h.scopeCounts scope kind
  rwa [Summary.scopeCounts, hn, Option.getD_some] at hcount

end totals

end Summary

end DecompTracker
