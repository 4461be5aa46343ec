import DecompTracker.Json.Literal

/-! JSON texts as rows of tokens. Blanks may stand between tokens and mean nothing, so a compact and
an indented text of one value have the same tokens. -/
namespace DecompTracker.Json

inductive Token where
  | openArray
  | closeArray
  | openObject
  | closeObject
  | comma
  | colon
  /-- A value without parts. -/
  | atom (value : Json)
  /-- A string, which may also name a member. -/
  | string (s : JsonString)

/-- Space, tab, line feed and carriage return. -/
def isSpace (c : Char) : Bool := c = ' ' || c = '\t' || c = '\n' || c = '\r'

def punctuation? : Char → Option Token
  | '[' => some .openArray
  | ']' => some .closeArray
  | '\x7b' => some .openObject
  | '\x7d' => some .closeObject
  | ',' => some .comma
  | ':' => some .colon
  | _ => none

/-- The token at the front of a text that starts with no blank, and what follows it. -/
def token? : List Char → Option (Token × List Char)
  | 'n' :: 'u' :: 'l' :: 'l' :: rest => some (.atom .null, rest)
  | 't' :: 'r' :: 'u' :: 'e' :: rest => some (.atom (.bool true), rest)
  | 'f' :: 'a' :: 'l' :: 's' :: 'e' :: rest => some (.atom (.bool false), rest)
  | '"' :: rest => (literal? rest).map fun p => (.string (stringOfLiteral p.1), p.2)
  | c :: rest =>
    match punctuation? c with
    | some t => some (t, rest)
    | none => (number? (c :: rest)).map fun p => (.atom p.1, p.2)
  | [] => none

/-- The tokens of a text. Each is taken off a text at most `fuel` characters long. -/
def tokensWithin : (fuel : Nat) → List Char → Option (List Token)
  | _, [] => some []
  | 0, _ => none
  | fuel + 1, c :: cs =>
    if isSpace c then tokensWithin fuel cs
    else do
      let (t, rest) ← token? (c :: cs)
      return t :: (← tokensWithin fuel rest)

def tokens? (cs : List Char) : Option (List Token) := tokensWithin cs.length cs

end DecompTracker.Json
