import DecompTracker.Forms.Classes
import DecompTracker.Report.Basic

/-! JSON forms of hierarchies, summaries and reports. Trees and graphs are only written. -/
namespace DecompTracker

open Hierarchy

instance : JsonForm EdgeKind where
  toJson k := .ofText k.word
  ofJson? := Json.choice? fun
    | "Contains" => some .contains
    | "DependsOn" => some .dependsOn
    | _ => none

/-- The kind of an edge is not written, and an edge that is read contains its target. -/
instance : JsonForm Edge where
  toJson e := .ofMembers [("source", toJson e.source), ("target", toJson e.target)]
  ofJson? j := do
    let r ← j.record? ["source", "target"]
    return { source := ← r.required "source", target := ← r.required "target", kind := .contains }

mutual

/-- Sizes are written for classes only. -/
def Hierarchy.Tree.toJson : Tree → Json
  | .node id name details children => .ofMembers <|
      [("id", .nat id), ("name", .ofText name), ("type", .ofText (NodeKind.ofDetails details).word),
        ("children", .array (treesToJson children))] ++
      match details with
      | some d => [("numMethods", .nat d.methodCount), ("totalBinarySize", .nat d.totalSize)]
      | none => []

def treesToJson : List Tree → List Json
  | [] => []
  | t :: ts => t.toJson :: treesToJson ts

end

def Hierarchy.FlatNode.toJson (n : FlatNode) : Json :=
  .ofMembers [("id", .nat n.id), ("name", .ofText n.name), ("type", .ofText n.kind.word)]

def Hierarchy.Graph.toJson (g : Graph) : Json :=
  .ofMembers [("nodes", .array (g.nodes.map FlatNode.toJson)), ("edges", JsonForm.toJson g.edges)]

instance : JsonForm ReportFormat where
  toJson f := .ofText f.word
  ofJson? := Json.choice? ReportFormat.ofWord?

instance : JsonForm StatusCounts where
  toJson n := .ofMembers
    [("undecompiled", toJson n.undecompiled), ("partial", toJson n.partly),
      ("decompiled", toJson n.decompiled)]
  ofJson? j := do
    let r ← j.record? ["undecompiled", "partial", "decompiled"]
    return {
      undecompiled := ← r.required "undecompiled"
      partly := ← r.required "partial"
      decompiled := ← r.required "decompiled" }

instance : JsonForm Summary where
  toJson s := .ofMembers
    [("classes", toJson s.classes), ("counts", toJson s.counts), ("methods", toJson s.methods),
      ("total_binary_size", toJson s.totalSize), ("functions", toJson s.functions),
      ("overrides", toJson s.overrides), ("per_namespace", toJson s.perNamespace)]
  ofJson? j := do
    let r ← j.record?
      ["classes", "counts", "methods", "total_binary_size", "functions", "overrides",
        "per_namespace"]
    return {
      classes := ← r.required "classes"
      counts := ← r.required "counts"
      methods := ← r.required "methods"
      totalSize := ← r.required "total_binary_size"
      functions := ← r.required "functions"
      overrides := ← r.required "overrides"
      perNamespace := ← r.required "per_namespace" }

instance : JsonForm NamespaceFilter where
  toJson f := .ofMembers [("namespaces", toJson f.namespaces.toList)]
  ofJson? j := do
    let r ← j.record? ["namespaces"]
    return .ofList (← r.required "namespaces")

def Report.toJson (r : Report) : Json :=
  .ofMembers <|
    [("statuses", JsonForm.toJson r.statuses)] ++
    (r.tree?.map fun t => ("tree", t.toJson)).toList ++
    (r.graph?.map fun g => ("graph", g.toJson)).toList ++
    [("summary", JsonForm.toJson r.summary)]

end DecompTracker
