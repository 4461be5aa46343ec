import DecompTracker.Proofs.Report.Agreement
import DecompTracker.Proofs.Report.InputOrder
import Mathlib.Algebra.Order.BigOperators.Group.List
import Mathlib.Algebra.Order.Ring.Nat

/-! Totals counted by functions. A report adds up methods and sizes class by class. The same totals
come from the functions, each of them taken once for every class that it belongs to, and then no more
methods than functions are counted unless two classes have the same short name. -/
namespace DecompTracker

/-- The number of classes, out of those with the given names, that a function belongs to. -/
def FunctionInfo.owners (f : FunctionInfo) (names : List QualifiedName) : Nat :=
  names.countP fun name => f.name.owner? = some name.last

theorem FunctionInfo.owners_cons (f : FunctionInfo) (name : QualifiedName)
    (names : List QualifiedName) :
    f.owners (name :: names) =
      f.owners names + if f.name.owner? = some name.last then 1 else 0 := by
  simp only [owners, List.countP_cons, decide_eq_true_eq]

/-- A function has one owner at most, which classes with different short names do not share. -/
theorem FunctionInfo.owners_le_one {names : List QualifiedName}
    (h : (names.map QualifiedName.last).Nodup) (f : FunctionInfo) : f.owners names ≤ 1 := by
  induction names with
  | nil => simp [owners]
  | cons name names ih =>
    rw [List.map_cons, List.nodup_cons] at h
    rw [owners_cons]
    split
    · rename_i howner
      have hnone : f.owners names = 0 := by
        rw [owners, List.countP_eq_zero]
        intro other hother heq
        rw [howner, decide_eq_true_eq, Option.some.injEq] at heq
        exact h.1 (List.mem_map.mpr ⟨other, hother, heq.symm⟩)
      omega
    · exact ih h.2

theorem sum_map_ownedBy (g : FunctionInfo → Nat) (short : String)
    (functions : List FunctionInfo) :
    ((ownedBy short functions).map g).sum =
      (functions.map fun f => g f * if f.name.owner? = some short then 1 else 0).sum := by
  induction functions with
  | nil => rfl
  | cons f functions ih =>
    rw [List.map_cons, List.sum_cons, ← ih]
    by_cases h : f.name.owner? = some short <;> simp [ownedBy, h]

/-- What each class owns adds up to what each function adds once for each of its owners. -/
theorem sum_ownedBy (g : FunctionInfo → Nat) (names : List QualifiedName)
    (functions : List FunctionInfo) :
    (names.map fun name => ((ownedBy name.last functions).map g).sum).sum =
      (functions.map fun f => g f * f.owners names).sum := by
  induction names with
  | nil => simp [FunctionInfo.owners]
  | cons name names ih =>
    rw [List.map_cons, List.sum_cons, ih, sum_map_ownedBy, Nat.add_comm, ← List.sum_map_add]
    simp only [FunctionInfo.owners_cons, Nat.mul_add]

section totals

variable {s : Snapshot} {filter : NamespaceFilter} {format : ReportFormat} {r : Report}

/-- The number of methods of a class and their size, added up over the classes of a report. -/
theorem Report.MadeFrom.sum_statuses (hr : r.MadeFrom s filter) :
    (r.statuses.map fun c => c.methodCount).sum =
        ((s.classes.keys.filter filter.accepts).map fun name =>
          (ownedBy name.last (s.functions.map FunctionEntry.resolve)).length).sum ∧
      (r.statuses.map fun c => c.totalSize).sum =
        ((s.classes.keys.filter filter.accepts).map fun name =>
          totalSize (ownedBy name.last (s.functions.map FunctionEntry.resolve))).sum := by
  have hperm : (classOrder (s.kept filter)).Perm (s.classes.keys.filter filter.accepts) := by
    rw [← keys_filterClasses]
    exact classOrder_perm _
  rw [hr.statuses, Snapshot.statuses, classifyAll_eq, List.map_map, List.map_map]
  exact ⟨(hperm.map _).sum_nat, (hperm.map _).sum_nat⟩

theorem Report.MadeFrom.methods_eq (hr : r.MadeFrom s filter) :
    r.summary.methods = (s.functions.map fun f =>
      f.resolve.owners (s.classes.keys.filter filter.accepts)).sum := by
  have hsum := sum_ownedBy (fun _ => 1) (s.classes.keys.filter filter.accepts)
    (s.functions.map FunctionEntry.resolve)
  simp only [List.map_const', List.sum_replicate_nat, Nat.mul_one, Nat.one_mul,
    List.map_map] at hsum
  rw [hr.tallies.methods, hr.sum_statuses.1, hsum]
  rfl

theorem Report.MadeFrom.totalSize_eq (hr : r.MadeFrom s filter) :
    r.summary.totalSize = min Text.maxWord (s.functions.map fun f =>
      f.size * f.resolve.owners (s.classes.keys.filter filter.accepts)).sum := by
  have hsum := sum_ownedBy FunctionInfo.size (s.classes.keys.filter filter.accepts)
    (s.functions.map FunctionEntry.resolve)
  have hsizes := hr.sum_statuses.2
  rw [List.map_map] at hsum
  simp only [DecompTracker.totalSize_eq] at hsizes
  rw [hr.tallies.totalSize, hsizes, Text.min_sum_min, hsum, Nat.min_comm]
  rfl

/-- Methods and sizes are counted function by function, even though sizes stop at the largest word
for each class and then once more for all of them. -/
theorem Report.build_totals (h : Report.build s filter format = .ok r) :
    r.summary.methods =
        (s.functions.map fun f =>
          f.resolve.owners (s.classes.keys.filter filter.accepts)).sum ∧
      r.summary.totalSize = min Text.maxWord
        (s.functions.map fun f =>
          f.size * f.resolve.owners (s.classes.keys.filter filter.accepts)).sum ∧
      r.summary.functions = s.functions.length ∧
      (((s.classes.keys.filter filter.accepts).map QualifiedName.last).Nodup →
        r.summary.methods ≤ r.summary.functions) := by
  have hr := madeFrom_of_build h
  have hfunctions : r.summary.functions = s.functions.length := by
    rw [hr.summary]
    rfl
  refine ⟨hr.methods_eq, hr.totalSize_eq, hfunctions, fun hnames => ?_⟩
  -- With different short names every function counts once at most.
  rw [hr.methods_eq, hfunctions]
  refine (List.sum_le_card_nsmul _ 1 fun n hn => ?_).trans_eq (by simp)
  obtain ⟨f, -, rfl⟩ := List.mem_map.mp hn
  exact f.resolve.owners_le_one hnames

end totals

/-- Two classes of different short names, and functions that do not fit one word together. -/
theorem Report.build_totals_actorFunctions :
    let s : Snapshot :=
      { classes := .ofList [(.parse "Heap", .ofList []), (.parse "ksys::Actor", .ofList [])]
        functions := actorFunctions
        overrides := .empty }
    ∃ r, Report.build s (.ofList []) .tree = .ok r ∧ r.summary.methods = 2 ∧
      r.summary.totalSize = Text.maxWord ∧ r.summary.methods ≤ r.summary.functions ∧
      r.summary.totalSize = min Text.maxWord
        (s.functions.map fun f => f.size *
          f.resolve.owners (s.classes.keys.filter (NamespaceFilter.ofList []).accepts)).sum := by
  intro s
  obtain ⟨r, hr, hmethods, hsize⟩ : ∃ r, Report.build s (.ofList []) .tree = .ok r ∧
      r.summary.methods = 2 ∧ r.summary.totalSize = Text.maxWord := by
    rw [Report.build_eq, Snapshot.summary, Snapshot.statuses_of_ordered (by decide +kernel)]
    exact exists_ok_of_any (by decide +kernel)
  obtain ⟨-, htotal, -, hle⟩ := Report.build_totals hr
  exact ⟨r, hr, hmethods, hsize, hle (by decide), htotal⟩

end DecompTracker
