import DecompTracker.Json.Form
import DecompTracker.Override
import DecompTracker.Yaml.Node

/-! Override tables: for each namespace the classes in it, by short name, and for each class an
entry that may give its status word. Tables are written in JSON or YAML. In YAML every scalar is a
text, and a value left out is an empty table or entry. -/
namespace DecompTracker

structure OverrideEntry where
  status : String
  deriving DecidableEq

instance : JsonForm OverrideEntry where
  toJson e := .ofMembers [("status", toJson e.status)]
  ofJson? j := do
    let r ← j.record? ["status"]
    return { status := ← r.optional "status" "" }

/-- Entries by namespace and short name. -/
abbrev OverrideFile := SortedMap String (SortedMap String OverrideEntry)

namespace OverrideFile

def ofJson? (text : String) : Option OverrideFile := JsonForm.ofText? text

/-- Reads a part of a document. The state tells how many aliases may still be followed. -/
abbrev Reader := ReaderT Yaml.Document (StateT Nat Option)

/-- The node itself, or the one its alias stands for. -/
def follow : Yaml.Node → Reader Yaml.Node
  | .alias number => do
    match ← get with
    | 0 => failure
    | left + 1 => do
      set left
      (← read).anchors.node? number
  | n => return n

def textOfNode (n : Yaml.Node) : Reader String := do
  match ← follow n with
  | .scalar text _ => return text
  | _ => failure

/-- A table by text. Of entries with one key the last counts. -/
def tableOfNode {ν : Type} (valueOfNode : Yaml.Node → Reader ν) (n : Yaml.Node) :
    Reader (SortedMap String ν) := do
  match ← follow n with
  | .mapping entries => do
    let entries ← entries.mapM fun e => do return (← textOfNode e.1, ← valueOfNode e.2)
    return .ofList entries
  | .scalar "" true => return .empty
  | _ => failure

/-- The status may be given once; other keys are passed over. -/
def entryOfNode (n : Yaml.Node) : Reader OverrideEntry := do
  match ← follow n with
  | .mapping entries => do
    let entries ← entries.mapM fun e => do return (← textOfNode e.1, e.2)
    match entries.filter fun e => e.1 = "status" with
    | [] => return ⟨""⟩
    | [(_, value)] => return ⟨← textOfNode value⟩
    | _ => failure
  | .scalar "" true => return ⟨""⟩
  | _ => failure

/-- For each part of the document a hundred aliases may be followed. -/
def ofYaml? (text : String) : Option OverrideFile := do
  let document ← Yaml.Document.parse? text
  let (file, _) ←
    ((tableOfNode (tableOfNode entryOfNode) document.root).run document).run
      (100 * document.root.parts)
  return file

/-- Adds a whole file to a table, namespaces and then short names in increasing order. -/
def addTo (file : OverrideFile) (table : OverrideTable) : OverrideTable :=
  file.entries.foldl (fun t e =>
    t.insertNamespace e.1 (e.2.entries.map fun x => (x.1, x.2.status))) table

end OverrideFile

end DecompTracker
