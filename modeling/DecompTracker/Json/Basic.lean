/-! JSON values as their text gives them: object members keep their order and their repetitions, and
numbers that are not natural or too large for a machine word keep their spelling. -/
namespace DecompTracker

/-- What a string literal denotes. Escapes may leave one half of a surrogate pair without the other;
such a literal denotes no text and is kept as it is written. -/
inductive JsonString where
  | text (s : String)
  | unpaired (source : String)
  deriving DecidableEq

inductive Json where
  | null
  | bool (b : Bool)
  | nat (n : Nat)
  | number (source : String)
  | string (s : JsonString)
  | array (items : List Json)
  | object (members : List (JsonString × Json))

namespace Json

instance : Inhabited Json := ⟨.null⟩

def ofText (s : String) : Json := .string (.text s)

/-- An object whose member names are plain texts. -/
def ofMembers (members : List (String × Json)) : Json :=
  .object (members.map fun m => (.text m.1, m.2))

end Json

end DecompTracker
