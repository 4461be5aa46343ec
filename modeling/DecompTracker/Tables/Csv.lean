import DecompTracker.Text.Split

/-! One line of comma-separated fields. Quotes open and close a quoted stretch anywhere in a field,
commas in such a stretch belong to the field, and a doubled quote in it is one quote. -/
namespace DecompTracker.Csv

/-- The fields from here on, inside or outside a quoted stretch. -/
def fieldsFrom : (isQuoted : Bool) → List Char → List (List Char)
  | _, [] => [[]]
  | true, '"' :: '"' :: cs => Text.consHead '"' (fieldsFrom true cs)
  | isQuoted, '"' :: cs => fieldsFrom (!isQuoted) cs
  | false, ',' :: cs => [] :: fieldsFrom false cs
  | isQuoted, c :: cs => Text.consHead c (fieldsFrom isQuoted cs)

def fields (line : String) : List String :=
  (fieldsFrom false line.toList).map String.ofList

theorem fieldsFrom_ne_nil (isQuoted : Bool) (cs : List Char) : fieldsFrom isQuoted cs ≠ [] := by
  fun_induction fieldsFrom isQuoted cs <;> simp_all [Text.consHead_ne_nil]

end DecompTracker.Csv
