import DecompTracker.Json.Reader
import DecompTracker.Json.Printer
import DecompTracker.SortedMap

/-! The JSON forms of types. A record reads from an object with a member for each field, in any
order and among others, or from an array of the fields in their order; trailing fields with a
default may be missing. A choice reads from its word, alone or as the name of a null member. -/
namespace DecompTracker

class JsonForm (α : Type) where
  toJson : α → Json
  ofJson? : Json → Option α

export JsonForm (toJson ofJson?)

namespace JsonForm

def ofText? {α : Type} [JsonForm α] (text : String) : Option α := (Json.parse? text).bind ofJson?

instance : JsonForm String where
  toJson := .ofText
  ofJson?
    | .string (.text s) => some s
    | _ => none

/-- Numbers are read up to the largest machine word. -/
instance : JsonForm Nat where
  toJson := .nat
  ofJson?
    | .nat n => if n ≤ Text.maxWord then some n else none
    | _ => none

instance {α : Type} [JsonForm α] : JsonForm (List α) where
  toJson items := .array (items.map toJson)
  ofJson?
    | .array items => items.mapM ofJson?
    | _ => none

instance {α β : Type} [JsonForm α] [JsonForm β] : JsonForm (α × β) where
  toJson p := .array [toJson p.1, toJson p.2]
  ofJson?
    | .array [a, b] => do return (← ofJson? a, ← ofJson? b)
    | _ => none

/-- Of members with one name the last counts. -/
instance {ν : Type} [JsonForm ν] : JsonForm (SortedMap String ν) where
  toJson m := .ofMembers (m.entries.map fun e => (e.1, toJson e.2))
  ofJson?
    | .object members => do
      let entries ← members.mapM fun m => do
        return ((← ofJson? (.string m.1) : String), (← ofJson? m.2 : ν))
      return .ofList entries
    | _ => none

end JsonForm

namespace Json

/-- The fields found for a record. -/
structure Record where
  fields : List (String × Json)

/-- The fields of a record that has the given names. Members with other names are passed over, but
no name may come twice. -/
def record? (names : List String) : Json → Option Record
  | .object members => do
    let members ← members.mapM fun m => do return ((← ofJson? (.string m.1) : String), m.2)
    let fields := members.filter fun m => names.contains m.1
    if (fields.map Prod.fst).Nodup then some ⟨fields⟩ else none
  | .array items => if items.length ≤ names.length then some ⟨names.zip items⟩ else none
  | _ => none

namespace Record

variable {α : Type} [JsonForm α]

def required (r : Record) (name : String) : Option α := (r.fields.lookup name).bind ofJson?

def optional (r : Record) (name : String) (default : α) : Option α :=
  match r.fields.lookup name with
  | some j => ofJson? j
  | none => some default

/-- A field that may be missing or null. -/
def nullable (r : Record) (name : String) : Option (Option α) :=
  match r.fields.lookup name with
  | some .null => some none
  | some j => (ofJson? j).map some
  | none => some none

end Record

def choice? {α : Type} (ofWord? : String → Option α) : Json → Option α
  | .string (.text word) => ofWord? word
  | .object [(.text word, .null)] => ofWord? word
  | _ => none

end Json

end DecompTracker
