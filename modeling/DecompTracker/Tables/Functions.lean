import DecompTracker.Forms.Classes
import DecompTracker.Tables.Csv
import DecompTracker.Text.Blank

/-! Function tables. Addresses are hexadecimal. A table is either a JSON list of rows or lines of
comma-separated fields under a header that names the columns; the columns may stand in any order
among others, and blank lines count as lines but hold nothing. -/
namespace DecompTracker

/-- An address text that is no number, and why. -/
structure AddressError where
  text : String
  cause : Text.NumeralError
  deriving DecidableEq

def AddressError.message (e : AddressError) : String := s!"Invalid hex address '{e.text}'"

/-- A mark of hexadecimal numbers in front of the digits is passed over once. -/
def dropHexMark : List Char → List Char
  | '0' :: 'x' :: cs => cs
  | '0' :: 'X' :: cs => cs
  | cs => cs

def parseAddress (text : String) : Except AddressError Nat :=
  match Text.wordOfChars 16 (dropHexMark (Text.trimChars text.toList)) with
  | .ok n => .ok n
  | .error cause => .error ⟨text, cause⟩

/-- A row as it is written: address and evidence are still texts. -/
structure FunctionRow where
  address : String
  code : String
  size : Nat
  symbol : String
  deriving DecidableEq

def FunctionRow.entry (row : FunctionRow) : Except AddressError FunctionEntry := do
  let address ← parseAddress row.address
  return { address, evidence := .ofCode row.code, size := row.size, symbol := row.symbol }

instance : JsonForm FunctionRow where
  toJson row := .ofMembers
    [("address", toJson row.address), ("quality", toJson row.code), ("size", toJson row.size),
      ("name", toJson row.symbol)]
  ofJson? j := do
    let r ← j.record? ["address", "quality", "size", "name"]
    return {
      address := ← r.required "address"
      code := ← r.required "quality"
      size := ← r.required "size"
      symbol := ← r.required "name" }

/-- What is wrong with a table of comma-separated fields. Lines count from one. -/
inductive TableError where
  | noHeader
  | missingColumn (name : String)
  | tooFewFields (line needed : Nat)
  | badSize (line : Nat) (text : String) (cause : Text.NumeralError)
  | badAddress (line : Nat) (cause : AddressError)
  deriving DecidableEq

namespace TableError

/-- The error followed by its causes. -/
def messages : TableError → List String
  | noHeader => ["Functions CSV is empty"]
  | missingColumn name => [s!"Functions CSV is missing the '{name}' column"]
  | tooFewFields line needed => [s!"Line {line}: expected at least {needed} fields"]
  | badSize line text cause => [s!"Line {line}: invalid size '{text}'", cause.message]
  | badAddress line cause => [s!"Line {line}: bad address", cause.message, cause.cause.message]

end TableError

/-- Where the columns stand in a line. -/
structure Columns where
  address : Nat
  code : Nat
  size : Nat
  name : Nat

namespace Columns

/-- The first field of the header with the given name. Blanks around it and the case of ASCII
letters do not matter. -/
def position (header : List String) (name : String) : Except TableError Nat :=
  match header.findIdx? fun field => (Text.trim field).map Char.toLower = name.map Char.toLower with
  | some i => .ok i
  | none => .error (.missingColumn name)

def ofHeader (header : List String) : Except TableError Columns := do
  return {
    address := ← position header "Address"
    code := ← position header "Quality"
    size := ← position header "Size"
    name := ← position header "Name" }

end Columns

/-- A field of a line, without the blanks around it. -/
def fieldAt (line : Nat) (fields : List String) (column : Nat) : Except TableError String :=
  match fields[column]? with
  | some field => .ok (Text.trim field)
  | none => .error (.tooFewFields line (column + 1))

/-- The row in the fields of a line. Its size is read first, then its address, then the rest. -/
def rowOfFields (columns : Columns) (line : Nat) (fields : List String) :
    Except TableError FunctionEntry := do
  let sizeText ← fieldAt line fields columns.size
  let size ← (Text.word 10 sizeText).mapError (TableError.badSize line sizeText)
  let addressText ← fieldAt line fields columns.address
  let address ← (parseAddress addressText).mapError (TableError.badAddress line)
  let code ← fieldAt line fields columns.code
  let symbol ← fieldAt line fields columns.name
  return { address, evidence := .ofCode code, size, symbol }

/-- The lines that hold something, each with its number. -/
def filledLines (text : String) : List (String × Nat) :=
  ((Text.lines text).zipIdx 1).filter fun l => !Text.allBlank l.1

def functionsOfCsv (text : String) : Except TableError (List FunctionEntry) :=
  match filledLines text with
  | [] => .error .noHeader
  | (header, _) :: rows => do
    let columns ← Columns.ofHeader (Csv.fields header)
    rows.mapM fun (line, number) => rowOfFields columns number (Csv.fields line)

end DecompTracker
