/-! Splitting a text at every occurrence of one character, and into lines. The pieces of a split
are never an empty list, and putting the separator back between them gives the text again. -/
namespace DecompTracker.Text

/-- Puts a character in front of the first piece. -/
def consHead (c : Char) : List (List Char) → List (List Char)
  | [] => [[c]]
  | piece :: pieces => (c :: piece) :: pieces

theorem consHead_ne_nil (c : Char) (pieces : List (List Char)) : consHead c pieces ≠ [] := by
  cases pieces <;> simp [consHead]

/-- The pieces between the occurrences of `separator`. -/
def splitChars (separator : Char) : List Char → List (List Char)
  | [] => [[]]
  | c :: cs =>
    if c = separator then [] :: splitChars separator cs else consHead c (splitChars separator cs)

theorem splitChars_ne_nil (separator : Char) (cs : List Char) : splitChars separator cs ≠ [] := by
  cases cs with
  | nil => simp [splitChars]
  | cons c cs => rw [splitChars]; split <;> simp [consHead_ne_nil]

theorem intercalate_splitChars (separator : Char) (cs : List Char) :
    [separator].intercalate (splitChars separator cs) = cs := by
  induction cs with
  | nil => rfl
  | cons c cs ih =>
    obtain ⟨piece, pieces, he⟩ := List.exists_cons_of_ne_nil (splitChars_ne_nil separator cs)
    rw [he] at ih
    rw [splitChars, he]
    split
    · subst c
      simpa [List.intercalate] using ih
    · cases pieces <;> simpa [consHead, List.intercalate] using ih

def splitAtChar (separator : Char) (s : String) : List String :=
  (splitChars separator s.toList).map String.ofList

/-- A line without the carriage return that stood before its line feed. -/
def dropReturn (line : List Char) : List Char :=
  if line.getLast? = some '\r' then line.dropLast else line

/-- A line feed ends a line, so nothing follows a last one. -/
def linesOfPieces : List (List Char) → List (List Char)
  | [] => []
  | [last] => if last.isEmpty then [] else [last]
  | piece :: pieces => dropReturn piece :: linesOfPieces pieces

def lines (s : String) : List String :=
  (linesOfPieces (splitChars '\n' s.toList)).map String.ofList

end DecompTracker.Text
