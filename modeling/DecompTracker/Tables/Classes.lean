import DecompTracker.Hierarchy.Draft
import DecompTracker.Json.Form

/-! Class tables: a JSON object from each class to the list of classes it refers to, or a JSON list
of classes that refer to none. A class given again replaces the earlier one. -/
namespace DecompTracker

open Hierarchy

/-- A class table as it is written. -/
inductive ClassTable where
  | withTargets (entries : SortedMap String (List String))
  | plain (names : List String)

namespace ClassTable

def ofJson? (j : Json) : Option ClassTable :=
  match (JsonForm.ofJson? j : Option (SortedMap String (List String))) with
  | some entries => some (.withTargets entries)
  | none => (JsonForm.ofJson? j : Option (List String)).map .plain

def dependencies : ClassTable → DependencyMap
  | withTargets entries => .ofList <| entries.entries.map fun e =>
      (.parse e.1, .ofList (e.2.map QualifiedName.parse))
  | plain names => .ofList <| names.map fun name => (.parse name, .ofList [])

end ClassTable

end DecompTracker
