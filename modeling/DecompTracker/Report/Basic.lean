import DecompTracker.Classification
import DecompTracker.Hierarchy.Draft
import DecompTracker.Report.Summary

/-! Progress reports. Classes outside the recognised namespaces are left out, the remaining ones
are classified in the order of their written names, and their statuses are shown in the wanted
shapes together with the totals. -/
namespace DecompTracker

/-- The recognised outermost scopes; without any, every name is recognised. -/
structure NamespaceFilter where
  namespaces : SortedSet String
  deriving DecidableEq

namespace NamespaceFilter

def ofList (namespaces : List String) : NamespaceFilter := ⟨.ofList namespaces⟩

def accepts (f : NamespaceFilter) (name : QualifiedName) : Bool :=
  f.namespaces.isEmpty || f.namespaces.contains name.topLevel

end NamespaceFilter

/-- Which shapes of the hierarchy a report shows. -/
inductive ReportFormat where
  | tree
  | graph
  | both
  deriving DecidableEq, Repr

namespace ReportFormat

def word : ReportFormat → String
  | .tree => "tree"
  | .graph => "graph"
  | .both => "both"

def ofWord? : String → Option ReportFormat
  | "tree" => some .tree
  | "graph" => some .graph
  | "both" => some .both
  | _ => none

def wantsTree : ReportFormat → Bool
  | .graph => false
  | _ => true

def wantsGraph : ReportFormat → Bool
  | .tree => false
  | _ => true

end ReportFormat

open Hierarchy

/-- The inputs a report is made from. -/
structure Snapshot where
  classes : DependencyMap
  functions : List FunctionEntry
  overrides : OverrideTable

structure Report where
  statuses : List ClassStatus
  tree? : Option Tree
  graph? : Option Graph
  summary : Summary

/-- Recognised classes with the recognised classes each refers to, itself excepted. -/
def filterClasses (classes : DependencyMap) (filter : NamespaceFilter) : DependencyMap :=
  (classes.filterKeys filter.accepts).mapEntries fun name targets =>
    targets.filter fun target => filter.accepts target && target ≠ name

/-- Names ordered by their written form, those written alike in the order of their segments. -/
def classOrder (classes : DependencyMap) : List QualifiedName :=
  classes.keys.mergeSort fun a b => a.joined ≤ b.joined

def classifyAll (classes : DependencyMap) (functions : List FunctionInfo)
    (overrides : OverrideTable) : List ClassStatus :=
  let index := OwnerIndex.ofList functions
  (classOrder classes).map fun name => index.classify name overrides

/-- A part that is made only when it is wanted. -/
def onlyIf {ε α : Type} (wanted : Bool) (make : Except ε α) : Except ε (Option α) :=
  if wanted then make.map some else .ok none

def Report.build (snapshot : Snapshot) (filter : NamespaceFilter) (format : ReportFormat) :
    Except Inconsistency Report := do
  let classes := filterClasses snapshot.classes filter
  let functions := snapshot.functions.map FunctionEntry.resolve
  let statuses := classifyAll classes functions snapshot.overrides
  let tree? ← onlyIf format.wantsTree (Tree.ofClasses statuses)
  let graph? ← onlyIf format.wantsGraph (Graph.ofClasses statuses classes)
  let summary := { Summary.ofStatuses statuses with
    functions := functions.length
    overrides := snapshot.overrides.size }
  return { statuses, tree?, graph?, summary }

end DecompTracker
