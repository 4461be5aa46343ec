import DecompTracker.Forms.Report
import DecompTracker.Project.Config

/-! JSON forms of a project's configuration and of its summary file. -/
namespace DecompTracker

open Project

instance : JsonForm Path where
  toJson p := .ofText p.text
  ofJson? j := (ofJson? j).map Path.mk

instance : JsonForm InputPaths where
  toJson p := .ofMembers
    [("classes", toJson p.classes), ("functions", toJson p.functions),
      ("overrides_dir", toJson p.overrides)]
  ofJson? j := do
    let r ← j.record? ["classes", "functions", "overrides_dir"]
    return {
      classes := ← r.required "classes"
      functions := ← r.required "functions"
      overrides := ← r.required "overrides_dir" }

instance : JsonForm OutputPaths where
  toJson p := .ofMembers
    [("tree", toJson p.tree), ("graph", toJson p.graph), ("summary", toJson p.summary)]
  ofJson? j := do
    let r ← j.record? ["tree", "graph", "summary"]
    return {
      tree := ← r.required "tree"
      graph := ← r.required "graph"
      summary := ← r.required "summary" }

/-- A missing description is not written. -/
instance : JsonForm Config where
  toJson c := .ofMembers <|
    [("name", toJson c.name)] ++
    (c.description?.map fun text => ("description", toJson text)).toList ++
    [("config_version", toJson c.version), ("namespaces", toJson c.namespaces),
      ("inputs", toJson c.inputs), ("outputs", toJson c.outputs)]
  ofJson? j := do
    let r ← j.record?
      ["name", "description", "config_version", "namespaces", "inputs", "outputs"]
    return {
      name := ← r.required "name"
      description? := ← r.nullable "description"
      version := ← r.required "config_version"
      namespaces := ← r.optional "namespaces" standardNamespaces
      inputs := ← r.optional "inputs" .standard
      outputs := ← r.optional "outputs" .standard }

instance : JsonForm InputHashes where
  toJson h := .ofMembers
    [("classes", toJson h.classes), ("functions", toJson h.functions),
      ("overrides", toJson h.overrides)]
  ofJson? j := do
    let r ← j.record? ["classes", "functions", "overrides"]
    return {
      classes := ← r.required "classes"
      functions := ← r.required "functions"
      overrides := ← r.optional "overrides" [] }

instance : JsonForm SummaryFile where
  toJson s := .ofMembers
    [("project", toJson s.project), ("tool_version", toJson s.toolVersion),
      ("inputs", toJson s.inputs), ("summary", toJson s.summary)]
  ofJson? j := do
    let r ← j.record? ["project", "tool_version", "inputs", "summary"]
    return {
      project := ← r.required "project"
      toolVersion := ← r.required "tool_version"
      inputs := ← r.required "inputs"
      summary := ← r.required "summary" }

end DecompTracker
