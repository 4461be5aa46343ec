import DecompTracker.Classification
import DecompTracker.Json.Form

/-! JSON forms of names, functions, class statuses and overrides. A name is written joined, so it
reads back equal when its joined form parses to it. -/
namespace DecompTracker

instance : JsonForm QualifiedName where
  toJson name := .ofText name.joined
  ofJson? j := (ofJson? j).map QualifiedName.parse

instance : JsonForm Evidence where
  toJson e := .ofText e.word
  ofJson? := Json.choice? fun
    | "unknown" => some .unknown
    | "other" => some .other
    | "decompiled" => some .decompiled
    | _ => none

instance : JsonForm FunctionInfo where
  toJson f := .ofMembers
    [("address", toJson f.address), ("quality", toJson f.evidence), ("size", toJson f.size),
      ("name", toJson f.name)]
  ofJson? j := do
    let r ← j.record? ["address", "quality", "size", "name"]
    return {
      address := ← r.required "address"
      evidence := ← r.required "quality"
      size := ← r.required "size"
      name := ← r.required "name" }

instance : JsonForm FunctionEntry where
  toJson f := .ofMembers
    [("address", toJson f.address), ("quality", toJson f.evidence), ("size", toJson f.size),
      ("name", toJson f.symbol)]
  ofJson? j := do
    let r ← j.record? ["address", "quality", "size", "name"]
    return {
      address := ← r.required "address"
      evidence := ← r.required "quality"
      size := ← r.required "size"
      symbol := ← r.required "name" }

instance : JsonForm StatusKind where
  toJson s := .ofText s.word
  ofJson? := Json.choice? fun
    | "undecompiled_class" => some .undecompiled
    | "partially_decompiled_class" => some .partly
    | "decompiled_class" => some .decompiled
    | _ => none

instance : JsonForm ClassStatus where
  toJson c := .ofMembers
    [("class", toJson c.name), ("status", toJson c.status), ("methodCount", toJson c.methodCount),
      ("totalBinarySize", toJson c.totalSize)]
  ofJson? j := do
    let r ← j.record? ["class", "status", "methodCount", "totalBinarySize"]
    return {
      name := ← r.required "class"
      status := ← r.required "status"
      methodCount := ← r.required "methodCount"
      totalSize := ← r.required "totalBinarySize" }

instance : JsonForm Hint where
  toJson h := .ofText h.word
  ofJson? := Json.choice? fun
    | "pending" => some .pending
    | "final" => some .final
    | _ => none

instance : JsonForm StatusOverride where
  toJson o := .ofMembers [("class", toJson o.name), ("hint", toJson o.hint)]
  ofJson? j := do
    let r ← j.record? ["class", "hint"]
    return { name := ← r.required "class", hint := ← r.required "hint" }

end DecompTracker
