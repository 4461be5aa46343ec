import DecompTracker.Json.Token

/-! Reading a JSON value from its text. The tokens are taken one after the other; the state of the
reading says what may come next and which arrays and objects are still open around it. -/
namespace DecompTracker.Json

/-- An open array or object with what it holds so far, the latest first. An open object waits for
the value of its latest name. -/
inductive Frame where
  | array (items : List Json)
  | object (members : List (JsonString × Json)) (name : JsonString)

inductive Reading where
  /-- A value comes next. -/
  | value (outer : List Frame)
  /-- The first item of an array or its end comes next. -/
  | firstItem (outer : List Frame)
  /-- The first member of an object or its end comes next. -/
  | firstMember (outer : List Frame)
  /-- Another member comes next. -/
  | member (members : List (JsonString × Json)) (outer : List Frame)
  /-- The colon after a member's name comes next. -/
  | colon (members : List (JsonString × Json)) (name : JsonString) (outer : List Frame)
  /-- A value is complete. -/
  | complete (value : Json) (outer : List Frame)

namespace Reading

/-- What a token does where a value may start. -/
def start (outer : List Frame) : Token → Option Reading
  | .openArray => some (.firstItem outer)
  | .openObject => some (.firstMember outer)
  | .atom j => some (.complete j outer)
  | .string s => some (.complete (.string s) outer)
  | _ => none

def step : Reading → Token → Option Reading
  | .value outer, t => start outer t
  | .firstItem outer, .closeArray => some (.complete (.array []) outer)
  | .firstItem outer, t => start (.array [] :: outer) t
  | .firstMember outer, .closeObject => some (.complete (.object []) outer)
  | .firstMember outer, .string name => some (.colon [] name outer)
  | .firstMember _, _ => none
  | .member members outer, .string name => some (.colon members name outer)
  | .member _ _, _ => none
  | .colon members name outer, .colon => some (.value (.object members name :: outer))
  | .colon _ _ _, _ => none
  | .complete j (.array items :: outer), .comma => some (.value (.array (j :: items) :: outer))
  | .complete j (.array items :: outer), .closeArray =>
    some (.complete (.array (j :: items).reverse) outer)
  | .complete j (.object members name :: outer), .comma =>
    some (.member ((name, j) :: members) outer)
  | .complete j (.object members name :: outer), .closeObject =>
    some (.complete (.object ((name, j) :: members).reverse) outer)
  | .complete _ _, _ => none

def run (state : Reading) (tokens : List Token) : Option Reading := tokens.foldlM step state

end Reading

def ofTokens? (tokens : List Token) : Option Json :=
  match Reading.run (.value []) tokens with
  | some (.complete j []) => some j
  | _ => none

/-- The value of a whole text, which holds nothing else. -/
def parse? (text : String) : Option Json := (tokens? text.toList).bind ofTokens?

end DecompTracker.Json
