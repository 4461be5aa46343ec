import DecompTracker.Yaml.BlockScalar
import DecompTracker.Yaml.Property

/-! YAML texts as rows of tokens. Indentation opens and closes block collections. A key is announced by
a question mark, or it is what a colon follows on one line: a scalar, a flow collection or an alias,
with what stands before it on its behalf. -/
namespace DecompTracker.Yaml

inductive Token where
  | directive (d : Directive)
  | documentStart
  | documentEnd
  | blockMapping
  | blockSequence
  | blockEnd
  | flowMapping
  | flowMappingEnd
  | flowSequence
  | flowSequenceEnd
  | entry
  | comma
  | key
  | value
  | alias (name : String)
  | anchor (name : String)
  | tag (handle : String)
  | scalar (text : String) (isPlain : Bool)
  deriving DecidableEq, Repr

/-- Line ends other than the separators of Unicode are line feeds. -/
def normalise : List Char → List Char
  | '\r' :: '\n' :: cs => '\n' :: normalise cs
  | '\r' :: cs => '\n' :: normalise cs
  | '\u0085' :: cs => '\n' :: normalise cs
  | c :: cs => c :: normalise cs
  | [] => []

/-- Characters that may stand in a text. -/
def isAllowed (c : Char) : Bool :=
  let n := c.toNat
  n == 0x09 || n == 0x0A || n == 0x0D || (0x20 ≤ n && n ≤ 0x7E) || n == 0x85 ||
    (0xA0 ≤ n && n ≤ 0xFFFD) || 0x10000 ≤ n

/-- Where a key may have started. -/
structure KeyStart where
  place : Place
  /-- How many tokens came before it. -/
  size : Nat
  /-- Whether nothing but a key may start there. -/
  isRequired : Bool

/-- The longest key, in bytes up to its colon. -/
def longestKey : Nat := 1024

/-- Whether a colon at a place makes a key of what started there. -/
def KeyStart.reaches (start : KeyStart) (colon : Place) : Bool :=
  start.place.line = colon.line && colon.offset ≤ start.place.offset + longestKey

structure Scanner where
  cursor : Cursor
  /-- Columns of the open block collections, the innermost first. -/
  indents : List Nat
  /-- Where a key may have started in the innermost flow collection, or in the block. -/
  key? : Option KeyStart
  /-- The same for what is around each open flow collection, the innermost first. -/
  outer : List (Option KeyStart)
  /-- Whether a key may start here. -/
  keyAllowed : Bool
  /-- The tokens so far, the latest first. -/
  found : List Token
  /-- How many tokens were found. -/
  size : Nat

namespace Scanner

def start (cs : List Char) : Scanner :=
  { cursor := ⟨⟨0, 0, 0⟩, cs⟩, indents := [], key? := none, outer := [], keyAllowed := true
    found := [], size := 0 }

def isFlow (s : Scanner) : Bool := !s.outer.isEmpty

def column (s : Scanner) : Nat := s.cursor.place.column

def push (s : Scanner) (t : Token) : Scanner := { s with found := t :: s.found, size := s.size + 1 }

/-- Puts a token before those that were found since there were `size` of them. -/
def insertAt (s : Scanner) (size : Nat) (t : Token) : Scanner :=
  let later := s.size - size
  { s with found := s.found.take later ++ t :: s.found.drop later, size := s.size + 1 }

def skip (s : Scanner) (n : Nat) : Scanner := { s with cursor := s.cursor.skip n }

/-- Passes blanks, comments and line ends, and a byte order mark at the start of a line. After a line
end in a block a key may start; where a key may start, a tab is no blank. -/
def toToken (isFlow : Bool) :
    (inComment keyAllowed : Bool) → Place → List Char → Cursor × Bool
  | _, keyAllowed, place, [] => (⟨place, []⟩, keyAllowed)
  | inComment, keyAllowed, place, c :: cs =>
    if isBreak c then toToken isFlow false (keyAllowed || !isFlow) (place.after c) cs
    else if inComment || c = '#' then toToken isFlow true keyAllowed (place.after c) cs
    else if c = ' ' || (c = '\t' && (isFlow || !keyAllowed)) ||
        (c = '\ufeff' && place.column = 0) then
      toToken isFlow false keyAllowed (place.after c) cs
    else (⟨place, c :: cs⟩, keyAllowed)

/-- Closes the block collections that stand further right than a column. -/
def unrollFrom (column : Nat) : (indents : List Nat) → Scanner → Scanner
  | [], s => s
  | i :: is, s =>
    if column < i then unrollFrom column is { s.push .blockEnd with indents := is } else s

/-- Inside a flow collection no block collection ends. -/
def unroll (s : Scanner) : Scanner := if s.isFlow then s else unrollFrom s.column s.indents s

/-- Closes all block collections. -/
def unrollAll (s : Scanner) : Scanner :=
  if s.isFlow then s else { s.indents.foldl (fun s _ => s.push .blockEnd) s with indents := [] }

/-- Opens a block collection at a column, before the tokens found since there were `size`, unless one
stands there already. -/
def rollAt (s : Scanner) (column size : Nat) (t : Token) : Scanner :=
  if s.isFlow || s.indents.head?.any (column ≤ ·) then s
  else { s.insertAt size t with indents := column :: s.indents }

/-- Gives up what might have become a key. -/
def dropKey? (s : Scanner) : Option Scanner :=
  if s.key?.any KeyStart.isRequired then none else some { s with key? := none }

/-- Notes that a key may start here, if one may. At the column of an open block collection nothing
else may. -/
def startKey? (s : Scanner) : Option Scanner :=
  if s.keyAllowed then do
    let s ← s.dropKey?
    let start : KeyStart := ⟨s.cursor.place, s.size, !s.isFlow && s.indents.head? = some s.column⟩
    return { s with key? := some start }
  else some s

/-- Takes an anchor, an alias or a tag. -/
def takeProperty (s : Scanner) (t : Token) (after : Cursor) : Option Scanner := do
  let s ← s.startKey?
  return { s.push t with cursor := after, keyAllowed := false }

def takeScalar (s : Scanner) (isPlain : Bool) (scanned : Scanned) : Option Scanner := do
  let s ← s.startKey?
  return { s.push (.scalar scanned.text isPlain) with
    cursor := scanned.after, keyAllowed := scanned.isNewLine }

/-- Takes a block scalar, which is never part of a key found by its colon. -/
def takeBlockScalar (s : Scanner) (scanned : Scanned) : Option Scanner := do
  let s ← s.dropKey?
  return { s.push (.scalar scanned.text false) with cursor := scanned.after, keyAllowed := true }

def openFlow (s : Scanner) (t : Token) : Option Scanner := do
  let s ← s.startKey?
  return { (s.push t).skip 1 with key? := none, outer := s.key? :: s.outer, keyAllowed := true }

/-- Without an open flow collection there is none to close. -/
def closeFlow (s : Scanner) (t : Token) : Option Scanner := do
  let s ← s.dropKey?
  let s := { (s.push t).skip 1 with keyAllowed := false }
  match s.outer with
  | key? :: outer => return { s with key?, outer }
  | [] => return s

def takeComma (s : Scanner) : Option Scanner := do
  let s ← s.dropKey?
  return { (s.push .comma).skip 1 with keyAllowed := true }

/-- Takes the mark of an item, a key or a value. In a block it opens a collection unless one stands
there, and a key may follow; in a flow collection one may follow the mark of an item only. -/
def takeMark (s : Scanner) (collection mark : Token) : Option Scanner := do
  let s ← s.dropKey?
  if s.isFlow then return { (s.push mark).skip 1 with keyAllowed := mark == .entry }
  else if s.keyAllowed then
    return ((s.rollAt s.column s.size collection).push mark).skip 1
  else none

/-- Takes a colon, which makes a key of what may be one. -/
def takeColon (s : Scanner) : Option Scanner :=
  match s.key?.filter (·.reaches s.cursor.place) with
  | some start =>
    let s := (s.insertAt start.size .key).rollAt start.place.column start.size .blockMapping
    some { (s.push .value).skip 1 with key? := none, keyAllowed := false }
  | none => s.takeMark .blockMapping .value

/-- Takes a mark between documents, or a directive. -/
def takeBetween (s : Scanner) (t : Token) (after : Cursor) : Option Scanner := do
  let s ← s.unrollAll.dropKey?
  return { s.push t with cursor := after, keyAllowed := false }

/-- Whether a plain scalar may start with a character before the given rest. -/
def mayStartPlain (isFlow : Bool) (c : Char) (cs : List Char) : Bool :=
  if c = '-' then !(cs.head?.any isBlank)
  else if c = '?' || c = ':' then !isFlow && !atGap cs
  else !isBlank c && !isFlowIndicator c && !"#&*!|>'\"%@\x60".toList.contains c

/-- Takes the next token; none when no token can stand here. -/
def step (s : Scanner) (c : Char) (cs : List Char) : Option Scanner := do
  let next := s.cursor.skip 1
  let least := match s.indents with
    | [] => 0
    | i :: _ => i + 1
  if s.column = 0 && c = '%' then
    let (d, after) ← directive? next
    s.takeBetween (.directive d) after
  else if s.column = 0 && atDocumentMark (c :: cs) then
    s.takeBetween (if c = '-' then .documentStart else .documentEnd) (s.cursor.skip 3)
  else if c = '[' then s.openFlow .flowSequence
  else if c = '\x7b' then s.openFlow .flowMapping
  else if c = ']' then s.closeFlow .flowSequenceEnd
  else if c = '\x7d' then s.closeFlow .flowMappingEnd
  else if c = ',' then s.takeComma
  else if c = '-' && atGap cs then s.takeMark .blockSequence .entry
  else if c = '?' && (s.isFlow || atGap cs) then s.takeMark .blockMapping .key
  else if c = ':' && (s.isFlow || atGap cs) then s.takeColon
  else if c = '*' then
    let (name, after) ← anchorName? next
    s.takeProperty (.alias name) after
  else if c = '&' then
    let (name, after) ← anchorName? next
    s.takeProperty (.anchor name) after
  else if c = '!' then
    let (handle, after) ← tagHandle? s.isFlow s.cursor
    s.takeProperty (.tag handle) after
  else if (c = '|' || c = '>') && !s.isFlow then
    s.takeBlockScalar (← blockScalar? (c = '|') least next)
  else if c = '\'' then s.takeScalar false (← singleFrom .empty [] next.place cs)
  else if c = '"' then s.takeScalar false (← doubleFrom .empty [] next.place cs)
  else if mayStartPlain s.isFlow c cs then
    s.takeScalar true (← plainFrom s.isFlow least .empty [] s.cursor.place (c :: cs))
  else none

/-- Takes all tokens. Every step takes at least one character. -/
def run : (fuel : Nat) → Scanner → Option (List Token)
  | fuel, s =>
    let (cursor, keyAllowed) := toToken s.isFlow false s.keyAllowed s.cursor.place s.cursor.rest
    let s := { s with cursor, keyAllowed }.unroll
    match s.cursor.rest, fuel with
    | [], _ => s.unrollAll.dropKey?.map fun s => s.found.reverse
    | _ :: _, 0 => none
    | c :: cs, fuel + 1 => do run fuel (← s.step c cs)

end Scanner

/-- The tokens of a whole text. -/
def tokens? (text : String) : Option (List Token) :=
  let cs := text.toList
  if cs.all isAllowed then
    let cs := normalise cs
    Scanner.run cs.length (.start cs)
  else none

end DecompTracker.Yaml
