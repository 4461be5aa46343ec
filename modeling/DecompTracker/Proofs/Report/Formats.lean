import DecompTracker.Proofs.Hierarchy.Reference
import DecompTracker.Proofs.Report.Parts

/-! Formats of reports. A format only selects what is shown: the statuses of a snapshot can stand in
one hierarchy or they cannot, and this shows alike whether a tree is built, a graph or both. -/
namespace DecompTracker

open Hierarchy

/-- What is made is shown when it is wanted. -/
theorem onlyIf_of_ok {ε α : Type} (wanted : Bool) {make : Except ε α} {a : α} (h : make = .ok a) :
    onlyIf wanted make = .ok (if wanted then some a else none) := by
  subst h
  cases wanted <;> rfl

variable {s : Snapshot} {filter : NamespaceFilter}

theorem Report.build_of_ok {t : Tree} {g : Graph}
    (ht : Tree.ofClasses (s.statuses filter) = .ok t)
    (hg : Graph.ofClasses (s.statuses filter) (s.kept filter) = .ok g) (format : ReportFormat) :
    Report.build s filter format =
      .ok ⟨s.statuses filter, if format.wantsTree then some t else none,
        if format.wantsGraph then some g else none, s.summary filter⟩ := by
  rw [build_eq, onlyIf_of_ok format.wantsTree ht, onlyIf_of_ok format.wantsGraph hg]
  rfl

/-- Every format wants one of the hierarchies, so their common error always shows. -/
theorem Report.build_of_error {e : Inconsistency}
    (ht : Tree.ofClasses (s.statuses filter) = .error e)
    (hg : Graph.ofClasses (s.statuses filter) (s.kept filter) = .error e)
    (format : ReportFormat) : Report.build s filter format = .error e := by
  rw [build_eq, ht, hg]
  cases format <;> rfl

/-- The formats fail with one list of conflicts, or they show parts of one and the same report. -/
theorem Report.build_formats_agree (s : Snapshot) (filter : NamespaceFilter) :
    (∃ e : Inconsistency, ∀ format, Report.build s filter format = .error e) ∨
      ∃ (statuses : List ClassStatus) (summary : Summary) (tree : Tree) (graph : Graph),
        Report.build s filter .tree = .ok ⟨statuses, some tree, none, summary⟩ ∧
        Report.build s filter .graph = .ok ⟨statuses, none, some graph, summary⟩ ∧
        Report.build s filter .both = .ok ⟨statuses, some tree, some graph, summary⟩ := by
  rcases ofClasses_cases (s.statuses filter) (s.kept filter) with
    ⟨e, ht, hg⟩ | ⟨tree, -, -, ht, hg⟩
  · exact .inl ⟨e, Report.build_of_error ht hg⟩
  · exact .inr ⟨s.statuses filter, s.summary filter, tree, _,
      Report.build_of_ok ht hg .tree, Report.build_of_ok ht hg .graph,
      Report.build_of_ok ht hg .both⟩

end DecompTracker
