import DecompTracker.ClassStatus
import DecompTracker.SortedMap

/-! Curated statuses that replace the derived ones. Overrides are kept by full class name, and the
last one given for a name counts. -/
namespace DecompTracker

/-- Whether work on a class goes on or is done. -/
inductive Hint where
  | pending
  | final
  deriving DecidableEq, Repr

namespace Hint

/-- Any word other than `pending` means that the class is done. -/
def ofWord (word : String) : Hint := if word = "pending" then .pending else .final

def word : Hint → String
  | .pending => "pending"
  | .final => "final"

def status : Hint → StatusKind
  | .pending => .partly
  | .final => .decompiled

end Hint

structure StatusOverride where
  name : QualifiedName
  hint : Hint
  deriving DecidableEq

structure OverrideTable where
  hints : SortedMap QualifiedName Hint
  deriving DecidableEq

namespace OverrideTable

def empty : OverrideTable := ⟨.empty⟩

def insert (t : OverrideTable) (name : QualifiedName) (hint : Hint) : OverrideTable :=
  ⟨t.hints.insert name hint⟩

def get? (t : OverrideTable) (name : QualifiedName) : Option StatusOverride :=
  (t.hints.get? name).map fun hint => { name, hint }

def size (t : OverrideTable) : Nat := t.hints.size

/-- Adds status words given by short class name inside one namespace. -/
def insertNamespace (t : OverrideTable) (scope : String) (entries : List (String × String)) :
    OverrideTable :=
  entries.foldl (fun t e => t.insert (.within scope e.1) (.ofWord e.2)) t

end OverrideTable

end DecompTracker
