import DecompTracker.ClassStatus
import DecompTracker.Text.Quoted

/-! Classes that cannot stand in one hierarchy, in pairs. -/
namespace DecompTracker.Hierarchy

inductive Conflict where
  /-- Leading segments of two names differ but are written the same. -/
  | sharedLead (written : String) (existing incoming : QualifiedName)
  /-- One class came twice with different details. -/
  | unequalDetails (name : QualifiedName) (existing incoming : StatusKind)
  deriving DecidableEq

def Conflict.message : Conflict → String
  | sharedLead written existing incoming =>
    s!"prefix '{written}' claimed by " ++ Text.quotedList existing.segments ++ " and " ++
      Text.quotedList incoming.segments
  | unequalDetails name existing incoming =>
    s!"class '{name.joined}' supplied twice " ++ s!"({existing.word} vs {incoming.word})"

/-- Why no hierarchy was built: every conflict found, in the order of finding. -/
structure Inconsistency where
  conflicts : List Conflict
  deriving DecidableEq

def Inconsistency.message (e : Inconsistency) : String :=
  s!"Inconsistent class hierarchy ({e.conflicts.length} conflict(s)): " ++
    "; ".intercalate (e.conflicts.map Conflict.message)

end DecompTracker.Hierarchy
