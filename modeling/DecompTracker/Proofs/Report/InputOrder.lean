import DecompTracker.Json.Reader
import DecompTracker.Proofs.Classification.Derivation
import DecompTracker.Proofs.Report.Parts
import DecompTracker.Proofs.Tables.Classes
import Mathlib.Data.List.Permutation

/-! The order of the inputs. A report does not change when the classes, the names that they refer to
or the functions are listed in another order, nor when a name is listed again. -/
namespace DecompTracker

open Hierarchy

/-! Functions -/

section functions

variable {functions functions' : List FunctionInfo}

theorem totalSize_perm (h : functions.Perm functions') :
    totalSize functions = totalSize functions' := by
  rw [totalSize_eq, totalSize_eq, (h.map FunctionInfo.size).sum_nat]

theorem StatusKind.ofEvidence_perm {evidence evidence' : List Evidence}
    (h : evidence.Perm evidence') : ofEvidence evidence = ofEvidence evidence' := by
  rw [ofEvidence, ofEvidence, h.all_eq, h.all_eq]

/-- A status is made from what can be counted. -/
theorem ClassStatus.ofOwned_perm (h : functions.Perm functions') (name : QualifiedName)
    (overrides : OverrideTable) :
    ofOwned name functions overrides = ofOwned name functions' overrides := by
  rw [ofOwned, ofOwned, StatusKind.ofEvidence_perm (h.map _), h.length_eq, totalSize_perm h]

theorem classify_perm (h : functions.Perm functions') (name : QualifiedName)
    (overrides : OverrideTable) :
    classify name functions overrides = classify name functions' overrides :=
  ClassStatus.ofOwned_perm (h.filter _) name overrides

end functions

/-! Reports -/

theorem Report.build_perm {classes : DependencyMap} {functions functions' : List FunctionEntry}
    (h : functions.Perm functions') (overrides : OverrideTable) (filter : NamespaceFilter)
    (format : ReportFormat) :
    Report.build ⟨classes, functions, overrides⟩ filter format =
      Report.build ⟨classes, functions', overrides⟩ filter format :=
  build_congr (classifyAll_congr overrides rfl fun name =>
    classify_perm (h.map FunctionEntry.resolve) name overrides) (fun _ _ => rfl) h.length_eq rfl

/-- A text that holds a list of classes, each with the names it refers to, in either shape. -/
def TextListsClasses (text : String) (listed : List (String × List String)) : Prop :=
  ∃ j, Json.parse? text = some j ∧ j.ListsClasses listed

/-- Two texts with the same classes are both read, and for the same functions they give the same
report or the same conflicts. -/
theorem Report.build_eq_of_reordered {text text' : String}
    {listed listed' : List (String × List String)} {functions functions' : List FunctionEntry}
    (ht : TextListsClasses text listed) (ht' : TextListsClasses text' listed')
    (hn : (listed.map Prod.fst).Nodup) (hn' : (listed'.map Prod.fst).Nodup)
    (hsets : classSets listed = classSets listed') (hf : functions.Perm functions')
    (overrides : OverrideTable) (filter : NamespaceFilter) (format : ReportFormat) :
    ∃ table table', (Json.parse? text).bind ClassTable.ofJson? = some table ∧
      (Json.parse? text').bind ClassTable.ofJson? = some table' ∧
      Report.build ⟨table.dependencies, functions, overrides⟩ filter format =
        Report.build ⟨table'.dependencies, functions', overrides⟩ filter format := by
  obtain ⟨j, hj, hlists⟩ := ht
  obtain ⟨j', hj', hlists'⟩ := ht'
  obtain ⟨table, table', htable, htable', hdeps⟩ := hlists.dependencies_eq hlists' hn hn' hsets
  refine ⟨table, table', by rw [hj, Option.bind_some, htable],
    by rw [hj', Option.bind_some, htable'], ?_⟩
  rw [hdeps]
  exact build_perm hf overrides filter format

/-- Two texts that list the same classes in different orders. -/
def actorText : String :=
  "\x7b\"ksys::Actor\": [\"Heap\", \"ksys::Actor::State\", \"Heap\"], \"Heap\": []\x7d"

def heapText : String :=
  "\x7b\"Heap\": [], \"ksys::Actor\": [\"ksys::Actor::State\", \"Heap\"]\x7d"

def actorEntries : List (String × List String) :=
  [("ksys::Actor", ["Heap", "ksys::Actor::State", "Heap"]), ("Heap", [])]

def heapEntries : List (String × List String) :=
  [("Heap", []), ("ksys::Actor", ["ksys::Actor::State", "Heap"])]

def actorFunctions : List FunctionEntry :=
  [⟨0x10, .decompiled, 0xFFFFFFFFFFFFFFFF, "_ZN4ksys5Actor5enterEv"⟩,
    ⟨0x18, .other, 24, "_ZN4ksys5Actor4initEv"⟩]

theorem Report.build_eq_of_reordered_actorText :
    TextListsClasses actorText actorEntries ∧ TextListsClasses heapText heapEntries ∧
      classSets actorEntries = classSets heapEntries ∧ actorFunctions.Perm actorFunctions.reverse ∧
      ∃ table table', (Json.parse? actorText).bind ClassTable.ofJson? = some table ∧
        (Json.parse? heapText).bind ClassTable.ofJson? = some table' ∧
        Report.build ⟨table.dependencies, actorFunctions, .empty⟩ (.ofList []) .both =
          Report.build ⟨table'.dependencies, actorFunctions.reverse, .empty⟩ (.ofList [])
            .both := by
  have ht : TextListsClasses actorText actorEntries := ⟨_, by cbv, .members actorEntries⟩
  have ht' : TextListsClasses heapText heapEntries := ⟨_, by cbv, .members heapEntries⟩
  have hsets : classSets actorEntries = classSets heapEntries := by decide
  have hf : actorFunctions.Perm actorFunctions.reverse := (List.reverse_perm _).symm
  exact ⟨ht, ht', hsets, hf, Report.build_eq_of_reordered ht ht' (by decide) (by decide) hsets hf
    .empty (.ofList []) .both⟩

end DecompTracker
