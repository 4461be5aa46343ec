import DecompTracker.Yaml.Scalar

/-! What may stand before nodes and documents of YAML: anchors, which name a node; tags, which name its
kind; and directives. Of a tag only its handle matters, the name of the vocabulary it is taken from. -/
namespace DecompTracker.Yaml

/-- The name of an anchor, behind its mark. -/
def anchorName? (cursor : Cursor) : Option (String × Cursor) :=
  let (name, after) := cursor.span isWord
  let mayFollow := atGap after.rest || after.rest.head?.any "?:,]\x7d%@\x60".toList.contains
  if name.isEmpty || !mayFollow then none else some (String.ofList name, after)

/-- Characters of a tag that stand for themselves. -/
def isTagChar (c : Char) : Bool := isWord c || ";/?:@&=+$.!~*'()".toList.contains c

/-- How many bytes a character takes whose first byte is given. -/
def byteCount? (first : Nat) : Option Nat :=
  if first < 0x80 then some 1
  else if first < 0xC0 then none
  else if first < 0xE0 then some 2
  else if first < 0xF0 then some 3
  else if first < 0xF8 then some 4
  else none

/-- Passes characters of a tag. A percent sign spells a byte of a character by two hexadecimal digits;
`due` bytes are missing of the character that was begun. Flow indicators stand for themselves where
a tag may hold them. -/
def skipTagChars (mayHoldFlow : Bool) : (due : Nat) → Place → List Char → Option Cursor
  | due, place, '%' :: a :: b :: cs => do
    let byte := (← Text.hexValue? a) * 16 + (← Text.hexValue? b)
    let due ←
      if due = 0 then (byteCount? byte).map (· - 1)
      else if 0x80 ≤ byte && byte < 0xC0 then some (due - 1)
      else none
    skipTagChars mayHoldFlow due (((place.after '%').after a).after b) cs
  | 0, place, c :: cs =>
    if c = '%' then none
    else if isTagChar c || (mayHoldFlow && (c = ',' || c = '[' || c = ']')) then
      skipTagChars mayHoldFlow 0 (place.after c) cs
    else some ⟨place, c :: cs⟩
  | 0, place, [] => some ⟨place, []⟩
  | _ + 1, _, _ => none

/-- Passes at least one character of a tag. -/
def skipTag? (mayHoldFlow : Bool) (cursor : Cursor) : Option Cursor := do
  let after ← skipTagChars mayHoldFlow 0 cursor.place cursor.rest
  if after.place.offset = cursor.place.offset then none else some after

/-- An exclamation mark, letters, and perhaps another mark. -/
def handle? (cursor : Cursor) : Option (String × Cursor) :=
  match cursor.rest with
  | '!' :: _ =>
    let (name, after) := (cursor.skip 1).span isWord
    let text := String.ofList ('!' :: name)
    if after.rest.head? = some '!' then some (text ++ "!", after.skip 1) else some (text, after)
  | _ => none

/-- Whether a handle has both its marks. -/
def isClosed (handle : String) : Bool := handle ≠ "!" && handle.endsWith "!"

/-- Passes a tag that starts here and tells its handle, which is empty for a tag written out in full. -/
def passTag? (cursor : Cursor) : Option (String × Cursor) :=
  match cursor.rest with
  | '!' :: '<' :: _ =>
    ((skipTag? true (cursor.skip 2)).filter (·.rest.head? = some '>')).map fun after =>
      ("", after.skip 1)
  | _ => do
    let (handle, after) ← handle? cursor
    if isClosed handle then (skipTag? false after).map (handle, ·)
    else (skipTagChars false 0 after.place after.rest).map ("!", ·)

/-- The handle of a tag that starts here. The tag ends at a gap, or before a comma in a flow
collection. -/
def tagHandle? (isFlow : Bool) (cursor : Cursor) : Option (String × Cursor) :=
  (passTag? cursor).filter fun (_, after) =>
    atGap after.rest || (isFlow && after.rest.head? = some ',')

inductive Directive where
  | version (major minor : Nat)
  /-- Makes a handle known. -/
  | handle (name : String)
  deriving DecidableEq, Repr

/-- A number of at most nine digits. -/
def versionNumber? (cursor : Cursor) : Option (Nat × Cursor) :=
  let (digits, after) := cursor.span Char.isDigit
  if digits.isEmpty || 9 < digits.length then none
  else some (digits.foldl (fun n c => n * 10 + (c.toNat - '0'.toNat)) 0, after)

/-- A directive behind its mark, up to the end of its line. -/
def directive? (cursor : Cursor) : Option (Directive × Cursor) := do
  let (name, after) := cursor.span isWord
  if !atGap after.rest then none
  else if name = "YAML".toList then do
    let (major, after) ← versionNumber? after.skipBlanks
    if after.rest.head? ≠ some '.' then none
    else do
      let (minor, after) ← versionNumber? (after.skip 1)
      return (.version major minor, ← after.endLine?)
  else if name = "TAG".toList then do
    let (handle, after) ← handle? after.skipBlanks
    if !(handle = "!" || isClosed handle) || !after.rest.head?.any isBlank then none
    else do
      let after ← skipTag? true after.skipBlanks
      if atGap after.rest then return (.handle handle, ← after.endLine?) else none
  else none

end DecompTracker.Yaml
