import DecompTracker.Json.Token

/-! Writing a JSON value, either without any blank or with one item or member to a line, indented by
two spaces for each array and object around it. Empty arrays and objects stay on one line. Each
writer puts its characters in front of what comes after them. -/
namespace DecompTracker.Json

/-- The characters of a value without parts. -/
def atom : Json → List Char
  | .null => "null".toList
  | .bool true => "true".toList
  | .bool false => "false".toList
  | .nat n => decimal n
  | .number source => source.toList
  | .string s => literal s
  | .array _ | .object _ => []

mutual

def compactBefore (after : List Char) : Json → List Char
  | .array [] => '[' :: ']' :: after
  | .array (j :: js) => '[' :: compactBefore (compactItemsBefore after js) j
  | .object [] => '\x7b' :: '\x7d' :: after
  | .object ((name, j) :: ms) =>
    '\x7b' :: (literal name ++ ':' :: compactBefore (compactMembersBefore after ms) j)
  | j => atom j ++ after

/-- The items after the first one and the end of the array. -/
def compactItemsBefore (after : List Char) : List Json → List Char
  | [] => ']' :: after
  | j :: js => ',' :: compactBefore (compactItemsBefore after js) j

/-- The members after the first one and the end of the object. -/
def compactMembersBefore (after : List Char) : List (JsonString × Json) → List Char
  | [] => '\x7d' :: after
  | (name, j) :: ms =>
    ',' :: (literal name ++ ':' :: compactBefore (compactMembersBefore after ms) j)

end

/-- A line feed and the indentation of the next line. -/
def newline (depth : Nat) : List Char := '\n' :: List.replicate (2 * depth) ' '

mutual

def prettyBefore (after : List Char) (depth : Nat) : Json → List Char
  | .array [] => '[' :: ']' :: after
  | .array (j :: js) =>
    '[' :: (newline (depth + 1) ++ prettyBefore (prettyItemsBefore after depth js) (depth + 1) j)
  | .object [] => '\x7b' :: '\x7d' :: after
  | .object ((name, j) :: ms) =>
    '\x7b' :: (newline (depth + 1) ++ literal name ++ ':' :: ' ' ::
      prettyBefore (prettyMembersBefore after depth ms) (depth + 1) j)
  | j => atom j ++ after

def prettyItemsBefore (after : List Char) (depth : Nat) : List Json → List Char
  | [] => newline depth ++ ']' :: after
  | j :: js =>
    ',' :: (newline (depth + 1) ++ prettyBefore (prettyItemsBefore after depth js) (depth + 1) j)

def prettyMembersBefore (after : List Char) (depth : Nat) : List (JsonString × Json) → List Char
  | [] => newline depth ++ '\x7d' :: after
  | (name, j) :: ms =>
    ',' :: (newline (depth + 1) ++ literal name ++ ':' :: ' ' ::
      prettyBefore (prettyMembersBefore after depth ms) (depth + 1) j)

end

def compact (j : Json) : String := String.ofList (j.compactBefore [])

def pretty (j : Json) : String := String.ofList (j.prettyBefore [] 0)

end DecompTracker.Json
