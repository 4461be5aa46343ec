import DecompTracker.Json.Basic
import DecompTracker.Text.Numeral

/-! String and number literals of JSON. Writing a text escapes quotes, backslashes and control
characters; reading accepts every escape of the grammar and joins surrogate pairs. -/
namespace DecompTracker.Json

def escapeChar (c : Char) : List Char :=
  match c with
  | '"' => ['\\', '"']
  | '\\' => ['\\', '\\']
  | '\x08' => ['\\', 'b']
  | '\x0c' => ['\\', 'f']
  | '\n' => ['\\', 'n']
  | '\r' => ['\\', 'r']
  | '\t' => ['\\', 't']
  | _ =>
    if c.toNat < 0x20 then
      ['\\', 'u', '0', '0', Nat.digitChar (c.toNat / 16), Nat.digitChar (c.toNat % 16)]
    else [c]

/-- The characters of a literal between its quotes. -/
def escape (cs : List Char) : List Char := cs.flatMap escapeChar

/-- What a backslash and one letter stand for. -/
def shortEscape? : Char → Option Char
  | '"' => some '"'
  | '\\' => some '\\'
  | '/' => some '/'
  | 'b' => some '\x08'
  | 'f' => some '\x0c'
  | 'n' => some '\n'
  | 'r' => some '\r'
  | 't' => some '\t'
  | _ => none

/-- The number spelled by four hexadecimal digits. -/
def unit? (a b c d : Char) : Option Nat := do
  return (← Text.hexValue? a) * 0x1000 + (← Text.hexValue? b) * 0x100 +
    (← Text.hexValue? c) * 0x10 + (← Text.hexValue? d)

/-- Cuts after the closing quote; before it only whole escapes and no control characters may
stand. -/
def literal? : List Char → Option (List Char × List Char)
  | '"' :: rest => some ([], rest)
  | '\\' :: 'u' :: a :: b :: c :: d :: rest =>
    if (unit? a b c d).isSome then
      (literal? rest).map fun p => ('\\' :: 'u' :: a :: b :: c :: d :: p.1, p.2)
    else none
  | '\\' :: e :: rest =>
    if (shortEscape? e).isSome then (literal? rest).map fun p => ('\\' :: e :: p.1, p.2) else none
  | c :: rest =>
    if c = '\\' ∨ c.toNat < 0x20 then none else (literal? rest).map fun p => (c :: p.1, p.2)
  | [] => none

def isHighSurrogate (n : Nat) : Bool := 0xD800 ≤ n && n ≤ 0xDBFF
def isLowSurrogate (n : Nat) : Bool := 0xDC00 ≤ n && n ≤ 0xDFFF

/-- The text between the quotes; none when a surrogate stands alone. -/
def unescape? : List Char → Option (List Char)
  | [] => some []
  | '\\' :: 'u' :: a :: b :: c :: d :: rest => do
    let n ← unit? a b c d
    if isLowSurrogate n then none
    else if isHighSurrogate n then
      match rest with
      | '\\' :: 'u' :: a' :: b' :: c' :: d' :: rest' => do
        let m ← unit? a' b' c' d'
        if isLowSurrogate m then
          (unescape? rest').map (Char.ofNat (0x10000 + (n - 0xD800) * 0x400 + (m - 0xDC00)) :: ·)
        else none
      | _ => none
    else (unescape? rest).map (Char.ofNat n :: ·)
  | '\\' :: e :: rest => do
    let c ← shortEscape? e
    (unescape? rest).map (c :: ·)
  | c :: rest => (unescape? rest).map (c :: ·)

def stringOfLiteral (source : List Char) : JsonString :=
  match unescape? source with
  | some cs => .text (String.ofList cs)
  | none => .unpaired (String.ofList source)

/-- The characters of a literal, quotes included. -/
def literal : JsonString → List Char
  | .text s => '"' :: (escape s.toList ++ ['"'])
  | .unpaired source => '"' :: (source.toList ++ ['"'])

def decimal (n : Nat) : List Char := Nat.toDigits 10 n

/-- A whole part: one zero, or digits that do not start with one. -/
def whole? : List Char → Option (List Char × List Char)
  | '0' :: rest => some (['0'], rest)
  | cs =>
    let digits := cs.takeWhile Char.isDigit
    if digits.isEmpty then none else some (digits, cs.dropWhile Char.isDigit)

/-- A point and at least one digit, or nothing. -/
def fraction? : List Char → Option (List Char × List Char)
  | '.' :: cs =>
    let digits := cs.takeWhile Char.isDigit
    if digits.isEmpty then none else some ('.' :: digits, cs.dropWhile Char.isDigit)
  | cs => some ([], cs)

/-- The sign of an exponent, if it has one. -/
def sign : List Char → List Char × List Char
  | '+' :: cs => (['+'], cs)
  | '-' :: cs => (['-'], cs)
  | cs => ([], cs)

/-- A letter `e`, perhaps a sign, and at least one digit, or nothing. -/
def exponent? : List Char → Option (List Char × List Char)
  | c :: cs =>
    if c = 'e' ∨ c = 'E' then
      let (s, cs) := sign cs
      let digits := cs.takeWhile Char.isDigit
      if digits.isEmpty then none else some (c :: s ++ digits, cs.dropWhile Char.isDigit)
    else some ([], c :: cs)
  | [] => some ([], [])

/-- A number literal. Digits alone are a natural number if it fits in a machine word; anything else
is kept as written. -/
def number? (cs : List Char) : Option (Json × List Char) := do
  let (minus, cs) := match cs with
    | '-' :: rest => (['-'], rest)
    | _ => ([], cs)
  let (digits, cs) ← whole? cs
  let (fraction, cs) ← fraction? cs
  let (exponent, cs) ← exponent? cs
  let asWritten := Json.number (String.ofList (minus ++ digits ++ fraction ++ exponent))
  if minus.isEmpty && fraction.isEmpty && exponent.isEmpty then
    match Text.wordOfChars 10 digits with
    | .ok n => return (.nat n, cs)
    | .error _ => return (asWritten, cs)
  else return (asWritten, cs)

end DecompTracker.Json
