import DecompTracker.Text.Numeral

/-! Scalars of YAML within lines: plain ones, which end where an indicator or a lower indentation says
so, and those between single or double quotes. Line ends inside a scalar are folded: one becomes a
space, and of several the first is dropped. -/
namespace DecompTracker.Yaml

/-- Line feed, and the line and paragraph separators of Unicode. Other line ends are turned into
line feeds before scanning. -/
def isBreak (c : Char) : Bool := c = '\n' || c = '\u2028' || c = '\u2029'

def isBlank (c : Char) : Bool := c = ' ' || c = '\t'

/-- Letters, digits, hyphen and underscore of ASCII. -/
def isWord (c : Char) : Bool := c.isAlphanum || c = '-' || c = '_'

/-- Whether a text is at its end, or at a blank or line end. -/
def atGap : List Char → Bool
  | [] => true
  | c :: _ => isBlank c || isBreak c

/-- Whether a mark between documents starts here; it stands at the start of a line. -/
def atDocumentMark : List Char → Bool
  | '-' :: '-' :: '-' :: cs => atGap cs
  | '.' :: '.' :: '.' :: cs => atGap cs
  | _ => false

/-- A place in a text. Lines and columns count characters, the offset counts bytes. -/
structure Place where
  line : Nat
  column : Nat
  offset : Nat

/-- The place behind a character. -/
def Place.after (p : Place) (c : Char) : Place :=
  if isBreak c then ⟨p.line + 1, 0, p.offset + c.utf8Size⟩
  else ⟨p.line, p.column + 1, p.offset + c.utf8Size⟩

/-- What is left of a text from a place on. -/
structure Cursor where
  place : Place
  rest : List Char

namespace Cursor

/-- Passes some characters. -/
def skip : Nat → Cursor → Cursor
  | 0, cursor => cursor
  | n + 1, ⟨place, c :: cs⟩ => skip n ⟨place.after c, cs⟩
  | _ + 1, cursor => cursor

/-- Passes characters of one kind. -/
def skipAll (kind : Char → Bool) : Place → List Char → Cursor
  | place, [] => ⟨place, []⟩
  | place, c :: cs => if kind c then skipAll kind (place.after c) cs else ⟨place, c :: cs⟩

/-- The longest start of characters of one kind, and what is left after it. -/
def span (kind : Char → Bool) (cursor : Cursor) : List Char × Cursor :=
  (cursor.rest.takeWhile kind, skipAll kind cursor.place cursor.rest)

def skipBlanks (cursor : Cursor) : Cursor := skipAll isBlank cursor.place cursor.rest

/-- Passes blanks and a comment, which have to reach the line end, and the line end. -/
def endLineFrom : (inComment : Bool) → Place → List Char → Option Cursor
  | _, place, [] => some ⟨place, []⟩
  | inComment, place, c :: cs =>
    if isBreak c then some ⟨place.after c, cs⟩
    else if inComment || c = '#' then endLineFrom true (place.after c) cs
    else if isBlank c then endLineFrom false (place.after c) cs
    else none

def endLine? (cursor : Cursor) : Option Cursor := endLineFrom false cursor.place cursor.rest

end Cursor

/-- What was passed since the last visible character, the latest first. -/
inductive Gap where
  | empty
  | blanks (passed : List Char)
  /-- The first line end, unless it was escaped, and the ones after it. -/
  | breaks (first : Option Char) (later : List Char)

namespace Gap

def addBlank (c : Char) : Gap → Gap
  | empty => blanks [c]
  | blanks passed => blanks (c :: passed)
  | breaks first later => breaks first later

def addBreak (c : Char) : Gap → Gap
  | breaks first later => breaks first (c :: later)
  | _ => breaks (some c) []

/-- What the gap adds to the scalar, the latest first. -/
def folded : Gap → List Char
  | empty => []
  | blanks passed => passed
  | breaks none later => later
  | breaks (some '\n') [] => [' ']
  | breaks (some '\n') later => later
  | breaks (some c) later => later ++ [c]

/-- What the gap adds when no line end is folded, the latest first. -/
def kept : Gap → List Char
  | empty => []
  | blanks passed => passed
  | breaks first later => later ++ first.toList

def isEmpty : Gap → Bool
  | empty => true
  | _ => false

def hasBreak : Gap → Bool
  | breaks _ _ => true
  | _ => false

end Gap

/-- A scalar, what is left after it, and whether that is on a line of its own. -/
structure Scanned where
  text : String
  after : Cursor
  isNewLine : Bool

/-- A scalar from its characters, the latest first. -/
def Scanned.ofReversed (found : List Char) (after : Cursor) (isNewLine : Bool) : Scanned :=
  ⟨String.ofList found.reverse, after, isNewLine⟩

def isFlowIndicator (c : Char) : Bool :=
  c = ',' || c = '[' || c = ']' || c = '\x7b' || c = '\x7d'

/-- Whether a plain scalar ends before a character: at a lower indentation than `least` in a block,
at a mark between documents, a comment, a colon with a gap after it or an indicator of a flow
collection. -/
def endsPlain (isFlow : Bool) (least : Nat) (gap : Gap) (place : Place) (c : Char)
    (cs : List Char) : Bool :=
  (!isFlow && gap.hasBreak && place.column < least) ||
    (place.column = 0 && atDocumentMark (c :: cs)) || (!gap.isEmpty && c = '#') ||
    (c = ':' && atGap cs) || (isFlow && isFlowIndicator c)

/-- Scans a plain scalar. In a block its further lines start at column `least` or beyond; in a flow
collection no colon may touch an indicator. -/
def plainFrom (isFlow : Bool) (least : Nat) :
    (gap : Gap) → (found : List Char) → Place → List Char → Option Scanned
  | gap, found, place, [] => some (.ofReversed found ⟨place, []⟩ gap.hasBreak)
  | gap, found, place, c :: cs =>
    if isBlank c then
      if gap.hasBreak && place.column < least && c = '\t' then none
      else plainFrom isFlow least (gap.addBlank c) found (place.after c) cs
    else if isBreak c then plainFrom isFlow least (gap.addBreak c) found (place.after c) cs
    else if endsPlain isFlow least gap place c cs then
      some (.ofReversed found ⟨place, c :: cs⟩ gap.hasBreak)
    else if isFlow && c = ':' && (cs.head?.any fun d => isFlowIndicator d || d = '?') then none
    else plainFrom isFlow least .empty (c :: (gap.folded ++ found)) (place.after c) cs

/-- What a backslash and one letter stand for between double quotes. -/
def escape? : Char → Option Char
  | '0' => some '\x00'
  | 'a' => some '\x07'
  | 'b' => some '\x08'
  | 't' => some '\t'
  | '\t' => some '\t'
  | 'n' => some '\n'
  | 'v' => some '\x0b'
  | 'f' => some '\x0c'
  | 'r' => some '\r'
  | 'e' => some '\x1b'
  | ' ' => some ' '
  | '"' => some '"'
  | '/' => some '/'
  | '\\' => some '\\'
  | 'N' => some '\u0085'
  | '_' => some '\u00a0'
  | 'L' => some '\u2028'
  | 'P' => some '\u2029'
  | _ => none

/-- The character with the code point spelled by hexadecimal digits. -/
def spelled? (digits : List Char) : Option Char := do
  let n ← digits.foldlM (fun n c => do return n * 16 + (← Text.hexValue? c)) 0
  if (0xD800 ≤ n ∧ n ≤ 0xDFFF) ∨ 0x10FFFF < n then none else some (Char.ofNat n)

/-- Scans the rest of a scalar between single quotes. -/
def singleFrom : (gap : Gap) → (found : List Char) → Place → List Char → Option Scanned
  | _, _, _, [] => none
  | gap, found, place, '\'' :: '\'' :: cs =>
    singleFrom .empty ('\'' :: (gap.folded ++ found)) ((place.after '\'').after '\'') cs
  | gap, found, place, '\'' :: cs =>
    some (.ofReversed (gap.folded ++ found) ⟨place.after '\'', cs⟩ false)
  | gap, found, place, c :: cs =>
    if isBlank c then singleFrom (gap.addBlank c) found (place.after c) cs
    else if isBreak c then singleFrom (gap.addBreak c) found (place.after c) cs
    else if place.column = 0 && atDocumentMark (c :: cs) then none
    else singleFrom .empty (c :: (gap.folded ++ found)) (place.after c) cs

/-- The place behind some characters. -/
def Place.afterAll (p : Place) (cs : List Char) : Place := cs.foldl Place.after p

/-- Scans the rest of a scalar between double quotes. -/
def doubleFrom : (gap : Gap) → (found : List Char) → Place → List Char → Option Scanned
  | _, _, _, [] => none
  | gap, found, place, '"' :: cs =>
    some (.ofReversed (gap.folded ++ found) ⟨place.after '"', cs⟩ false)
  | gap, found, place, '\\' :: 'x' :: a :: b :: cs => do
    let e ← spelled? [a, b]
    doubleFrom .empty (e :: (gap.folded ++ found)) (place.afterAll ['\\', 'x', a, b]) cs
  | gap, found, place, '\\' :: 'u' :: a :: b :: c :: d :: cs => do
    let e ← spelled? [a, b, c, d]
    doubleFrom .empty (e :: (gap.folded ++ found)) (place.afterAll ['\\', 'u', a, b, c, d]) cs
  | gap, found, place, '\\' :: 'U' :: a :: b :: c :: d :: e :: f :: g :: h :: cs => do
    let i ← spelled? [a, b, c, d, e, f, g, h]
    doubleFrom .empty (i :: (gap.folded ++ found))
      (place.afterAll ['\\', 'U', a, b, c, d, e, f, g, h]) cs
  | gap, found, place, '\\' :: c :: cs =>
    let next := (place.after '\\').after c
    if isBreak c then doubleFrom (.breaks none []) (gap.folded ++ found) next cs
    else do
      let e ← escape? c
      doubleFrom .empty (e :: (gap.folded ++ found)) next cs
  | gap, found, place, c :: cs =>
    if isBlank c then doubleFrom (gap.addBlank c) found (place.after c) cs
    else if isBreak c then doubleFrom (gap.addBreak c) found (place.after c) cs
    else if c = '\\' || (place.column = 0 && atDocumentMark (c :: cs)) then none
    else doubleFrom .empty (c :: (gap.folded ++ found)) (place.after c) cs

end DecompTracker.Yaml
