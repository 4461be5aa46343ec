import DecompTracker.Function
import DecompTracker.Override

/-! Deriving the status of a class from the functions it owns. Ownership goes by short name only:
a function belongs to every class whose last segment is the function's second-to-last one. An
override replaces the derived status and nothing else. Looking owners up in an index gives the same
status as scanning all functions. -/
namespace DecompTracker

/-- Untouched functions alone leave a class undecompiled, matched ones alone complete it. -/
def StatusKind.ofEvidence (evidence : List Evidence) : StatusKind :=
  if evidence.all (· == .unknown) then .undecompiled
  else if evidence.all (· == .decompiled) then .decompiled
  else .partly

/-- Sizes add up to at most the largest machine word. -/
def totalSize (functions : List FunctionInfo) : Nat :=
  functions.foldl (fun sum f => Text.saturatingAdd sum f.size) 0

/-- The status of a class that owns exactly the given functions. -/
def ClassStatus.ofOwned (name : QualifiedName) (owned : List FunctionInfo)
    (overrides : OverrideTable) : ClassStatus where
  name := name
  status := match overrides.get? name with
    | some o => o.hint.status
    | none => .ofEvidence (owned.map (·.evidence))
  methodCount := owned.length
  totalSize := DecompTracker.totalSize owned

/-- The functions owned by any class with the given short name. -/
def ownedBy (short : String) (functions : List FunctionInfo) : List FunctionInfo :=
  functions.filter fun f => f.name.owner? = some short

def classify (name : QualifiedName) (functions : List FunctionInfo) (overrides : OverrideTable) :
    ClassStatus :=
  .ofOwned name (ownedBy name.last functions) overrides

/-- Functions grouped by the short name of their owner, and the number of those without one. -/
structure OwnerIndex where
  buckets : SortedMap String (List FunctionInfo)
  freeFunctions : Nat

namespace OwnerIndex

def empty : OwnerIndex := ⟨.empty, 0⟩

/-- Places a function before the ones already indexed. -/
def add (f : FunctionInfo) (index : OwnerIndex) : OwnerIndex :=
  match f.name.owner? with
  | some owner =>
    { index with buckets := index.buckets.update owner fun bucket => f :: bucket.getD [] }
  | none => { index with freeFunctions := index.freeFunctions + 1 }

def ofList (functions : List FunctionInfo) : OwnerIndex := functions.foldr add empty

def functionsFor (index : OwnerIndex) (short : String) : List FunctionInfo :=
  (index.buckets.get? short).getD []

def classify (index : OwnerIndex) (name : QualifiedName) (overrides : OverrideTable) :
    ClassStatus :=
  .ofOwned name (index.functionsFor name.last) overrides

theorem functionsFor_add (f : FunctionInfo) (index : OwnerIndex) (short : String) :
    (index.add f).functionsFor short =
      if f.name.owner? = some short then f :: index.functionsFor short
      else index.functionsFor short := by
  unfold add functionsFor
  split
  · rename_i owner ho
    by_cases hs : owner = short
    · subst hs; simp [ho, SortedMap.get?_update_self]
    · simp [ho, hs, SortedMap.get?_update_of_ne _ _ (Ne.symm hs)]
  · rename_i ho; simp [ho]

end OwnerIndex

end DecompTracker
