import DecompTracker.Proofs.Hierarchy.Progress
import DecompTracker.Proofs.Report.Agreement
import DecompTracker.Proofs.Report.Formats

/-! Reports at a later stage. With the same functions, none of them less decompiled than before, a
report is made exactly when it was made before. Then it has the same classes on the same nodes, none
of them with a lower status, and as many of them in each namespace, so more classes may count as
decompiled and fewer as undecompiled. -/
namespace DecompTracker

open Hierarchy

/-! Totals -/

/-- As many classes, of which no fewer are decompiled and no more undecompiled. -/
structure StatusCounts.Raised (n n' : StatusCounts) : Prop where
  decompiled : n.decompiled ≤ n'.decompiled
  undecompiled : n'.undecompiled ≤ n.undecompiled
  total : n.total = n'.total

/-- Only the counts by status may change. -/
structure Summary.Raised (s s' : Summary) : Prop where
  classes : s.classes = s'.classes
  methods : s.methods = s'.methods
  totalSize : s.totalSize = s'.totalSize
  functions : s.functions = s'.functions
  overrides : s.overrides = s'.overrides
  counts : s.counts.Raised s'.counts
  scopes : ∀ scope, scope ∈ s.perNamespace.keys ↔ scope ∈ s'.perNamespace.keys
  scopeCounts : ∀ scope, (s.scopeCounts scope).Raised (s'.scopeCounts scope)

/-- The same classes on the same nodes, none of them with a lower status. -/
structure Report.Raised (r r' : Report) : Prop where
  statuses : List.Forall₂ ClassStatus.Raised r.statuses r'.statuses
  tree : Option.Rel Tree.Raised r.tree? r'.tree?
  graph : Option.Rel Graph.Raised r.graph? r'.graph?
  summary : r.summary.Raised r'.summary

theorem StatusKind.le_undecompiled_iff {status : StatusKind} :
    status ≤ .undecompiled ↔ status = .undecompiled := by
  cases status <;> decide

theorem StatusKind.decompiled_le_iff {status : StatusKind} :
    .decompiled ≤ status ↔ status = .decompiled := by
  cases status <;> decide

section totals

variable {statuses statuses' : List ClassStatus}

/-- Classes that are counted together, at an earlier and at a later stage. -/
theorem StatusCounts.raised_of_countP {n n' : StatusCounts} {p : ClassStatus → Prop}
    [DecidablePred p] (h : List.Forall₂ ClassStatus.Raised statuses statuses')
    (hp : ∀ c c' : ClassStatus, c.Raised c' → (p c ↔ p c'))
    (hn : ∀ kind, n.count kind = statuses.countP fun c => p c ∧ c.status = kind)
    (hn' : ∀ kind, n'.count kind = statuses'.countP fun c => p c ∧ c.status = kind) :
    n.Raised n' := by
  have hflip : List.Forall₂ (fun c' c => ClassStatus.Raised c c') statuses' statuses := h.flip
  refine ⟨?_, ?_, ?_⟩
  · refine (hn .decompiled).trans_le (le_of_le_of_eq ?_ (hn' .decompiled).symm)
    refine countP_le_of_forall₂ (fun c c' hc hpc => ?_) h
    obtain ⟨hpc, hs⟩ := of_decide_eq_true hpc
    have hle := hc.details.status
    rw [hs, StatusKind.decompiled_le_iff] at hle
    exact decide_eq_true ⟨(hp c c' hc).mp hpc, hle⟩
  · refine (hn' .undecompiled).trans_le (le_of_le_of_eq ?_ (hn .undecompiled).symm)
    refine countP_le_of_forall₂ (fun c' c hc hpc => ?_) hflip
    obtain ⟨hpc, hs⟩ := of_decide_eq_true hpc
    have hle := hc.details.status
    rw [hs, StatusKind.le_undecompiled_iff] at hle
    exact decide_eq_true ⟨(hp c c' hc).mpr hpc, hle⟩
  · rw [total_eq_countP hn, total_eq_countP hn']
    refine Nat.le_antisymm (countP_le_of_forall₂ (fun c c' hc hpc => ?_) h)
      (countP_le_of_forall₂ (fun c' c hc hpc => ?_) hflip)
    · exact decide_eq_true ((hp c c' hc).mp (of_decide_eq_true hpc))
    · exact decide_eq_true ((hp c c' hc).mpr (of_decide_eq_true hpc))

theorem Summary.Tallies.raised {s s' : Summary} (hs : s.Tallies statuses)
    (hs' : s'.Tallies statuses') (h : List.Forall₂ ClassStatus.Raised statuses statuses')
    (hfunctions : s.functions = s'.functions) (hoverrides : s.overrides = s'.overrides) :
    s.Raised s' where
  classes := by rw [hs.classes, hs'.classes, h.length_eq]
  methods := by
    rw [hs.methods, hs'.methods, map_eq_of_forall₂ (fun _ _ hc => hc.details.methodCount) h]
  totalSize := by
    rw [hs.totalSize, hs'.totalSize, map_eq_of_forall₂ (fun _ _ hc => hc.details.totalSize) h]
  functions := hfunctions
  overrides := hoverrides
  counts := by
    refine StatusCounts.raised_of_countP (p := fun _ => True) h (fun _ _ _ => Iff.rfl) ?_ ?_
    · simpa using hs.counts
    · simpa using hs'.counts
  scopes scope := by
    have hscopes : statuses.map (fun c => c.name.topLevel) =
        statuses'.map fun c => c.name.topLevel :=
      map_eq_of_forall₂ (fun _ _ hc => congrArg QualifiedName.topLevel hc.name) h
    rw [hs.scopes, hs'.scopes, ← List.mem_map, hscopes, List.mem_map]
  scopeCounts scope := by
    refine StatusCounts.raised_of_countP (p := fun c => c.name.topLevel = scope) h
      (fun c c' hc => ?_) (hs.scopeCounts scope) (hs'.scopeCounts scope)
    rw [hc.name]

end totals

/-! Reports -/

section reports

variable {functions functions' : List FunctionEntry}

theorem Snapshot.raised_statuses (h : List.Forall₂ FunctionEntry.Raised functions functions')
    (classes : DependencyMap) (overrides : OverrideTable) (filter : NamespaceFilter) :
    List.Forall₂ ClassStatus.Raised (statuses ⟨classes, functions, overrides⟩ filter)
      (statuses ⟨classes, functions', overrides⟩ filter) := by
  have hfunctions : List.Forall₂ FunctionInfo.Raised (functions.map FunctionEntry.resolve)
      (functions'.map FunctionEntry.resolve) :=
    List.rel_map (fun _ _ hf => hf.resolve) h
  rw [statuses, statuses, classifyAll_eq, classifyAll_eq, kept, kept, List.forall₂_map_left_iff,
    List.forall₂_map_right_iff, List.forall₂_same]
  exact fun name _ => classify_raised hfunctions name overrides

theorem rel_onlyIf {α : Type} {R : α → α → Prop} (wanted : Bool) {a a' : α} (h : R a a') :
    Option.Rel R (if wanted then some a else none) (if wanted then some a' else none) := by
  cases wanted with
  | false => exact .none
  | true => exact .some h

/-- Better evidence for the same functions makes no report fail and no class fall back. -/
theorem Report.build_raised (h : List.Forall₂ FunctionEntry.Raised functions functions')
    (classes : DependencyMap) (overrides : OverrideTable) (filter : NamespaceFilter)
    (format : ReportFormat) :
    ((∃ e, Report.build ⟨classes, functions, overrides⟩ filter format = .error e) ∧
      ∃ e, Report.build ⟨classes, functions', overrides⟩ filter format = .error e) ∨
    ∃ r r', Report.build ⟨classes, functions, overrides⟩ filter format = .ok r ∧
      Report.build ⟨classes, functions', overrides⟩ filter format = .ok r' ∧ r.Raised r' := by
  have hstatuses := Snapshot.raised_statuses h classes overrides filter
  have hcompatible := pairwise_not_conflicts_congr
    (Snapshot.nodup_names ⟨classes, functions, overrides⟩ filter) (map_name_raised hstatuses)
  rcases ofClasses_alike hcompatible (filterClasses classes filter) with
    ⟨⟨e, ht, hg⟩, e', ht', hg'⟩ | ⟨t, t', g, g', ht, ht', hg, hg'⟩
  · exact .inl ⟨⟨e, build_of_error ht hg format⟩, e', build_of_error ht' hg' format⟩
  · have hr := build_of_ok ht hg format
    have hr' := build_of_ok ht' hg' format
    refine .inr ⟨_, _, hr, hr', hstatuses,
      rel_onlyIf _ (Tree.raised_of_ofClasses hstatuses ht ht'),
      rel_onlyIf _ (Graph.raised_of_ofClasses hstatuses hg hg'), ?_⟩
    exact (madeFrom_of_build hr).tallies.raised (madeFrom_of_build hr').tallies hstatuses
      h.length_eq rfl

end reports

/-- One more of the functions of an actor is matched. -/
theorem Report.build_raised_trackedClasses :
    let later : List FunctionEntry := [⟨0x10, .decompiled, 8, "_ZN4ksys5Actor5enterEv"⟩,
      ⟨0x18, .decompiled, 24, "_ZN4ksys5Actor4initEv"⟩, ⟨0x30, .other, 4, "free"⟩]
    ∃ r r', Report.build trackedClasses (.ofList ["ksys", "sead"]) .both = .ok r ∧
      Report.build { trackedClasses with functions := later } (.ofList ["ksys", "sead"]) .both =
        .ok r' ∧
      r.summary.counts = ⟨1, 1, 1⟩ ∧ r'.summary.counts = ⟨1, 0, 2⟩ ∧ r.Raised r' := by
  intro later
  have hraised : List.Forall₂ FunctionEntry.Raised trackedClasses.functions later :=
    .cons ⟨rfl, rfl, rfl, by decide⟩ (.cons ⟨rfl, rfl, rfl, by decide⟩
      (.cons ⟨rfl, rfl, rfl, by decide⟩ .nil))
  obtain ⟨r, hr, hcounts⟩ : ∃ r, Report.build trackedClasses (.ofList ["ksys", "sead"]) .both =
      .ok r ∧ r.summary.counts = ⟨1, 1, 1⟩ := by
    rw [Report.build_eq, Snapshot.summary, Snapshot.statuses_of_ordered (by decide +kernel)]
    exact exists_ok_of_any (by decide +kernel)
  obtain ⟨r', hr', hcounts'⟩ : ∃ r', Report.build { trackedClasses with functions := later }
      (.ofList ["ksys", "sead"]) .both = .ok r' ∧ r'.summary.counts = ⟨1, 0, 2⟩ := by
    rw [Report.build_eq, Snapshot.summary, Snapshot.statuses_of_ordered (by decide +kernel)]
    exact exists_ok_of_any (by decide +kernel)
  rcases Report.build_raised hraised trackedClasses.classes trackedClasses.overrides
    (.ofList ["ksys", "sead"]) .both with ⟨⟨e, he⟩, -⟩ | ⟨r₁, r₁', h₁, h₁', h⟩
  · exact absurd (hr.symm.trans he) (by simp)
  · obtain rfl := Except.ok.inj (hr.symm.trans h₁)
    obtain rfl := Except.ok.inj (hr'.symm.trans h₁')
    exact ⟨r, r', hr, hr', hcounts, hcounts', h⟩

end DecompTracker
