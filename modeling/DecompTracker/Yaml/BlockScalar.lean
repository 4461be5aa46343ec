import DecompTracker.Yaml.Scalar

/-! Block scalars of YAML: a header, and the lines below it that are indented enough. In a literal
scalar every line end stays; in a folded one, line ends between lines that do not start with a blank
are folded. The header may say how far the lines are indented, which their first one tells
otherwise, and what becomes of the line ends after the last line. -/
namespace DecompTracker.Yaml

inductive Chomping where
  /-- No line end stays. -/
  | strip
  /-- The end of the last line stays. -/
  | clip
  /-- The ends of the empty lines after it stay too. -/
  | keep
  deriving DecidableEq, Repr

namespace Chomping

def ofMark? : Char → Option Chomping
  | '+' => some keep
  | '-' => some strip
  | _ => none

/-- What stays of the line ends after the last line, the latest first. -/
def tail (chomping : Chomping) : Gap → List Char
  | .breaks first later =>
    match chomping with
    | strip => []
    | clip => first.toList
    | keep => later ++ first.toList
  | _ => []

end Chomping

structure BlockHeader where
  chomping : Chomping
  /-- How much further in than the collection around them the lines are, if the header says so. -/
  increment : Option Nat

/-- The header behind its first mark, up to the end of its line: at most one digit, which is not zero,
and at most one sign, in either order. -/
def BlockHeader.read? (cursor : Cursor) : Option (BlockHeader × Cursor) :=
  let marks := (cursor.rest.take 2).takeWhile fun c => c.isDigit || c = '+' || c = '-'
  let digits := marks.filter Char.isDigit
  let signs := marks.filterMap Chomping.ofMark?
  if 1 < digits.length || 1 < signs.length || digits.contains '0' then none
  else
    (cursor.skip marks.length).endLine?.map fun after =>
      (⟨signs.head?.getD .clip, digits.head?.map fun c => c.toNat - '0'.toNat⟩, after)

/-- Empty lines, and the indentation of the line after them. -/
structure EmptyLines where
  /-- Their line ends, the latest first. -/
  ends : List Char
  /-- The largest indentation among these lines and the one after them. -/
  deepest : Nat
  after : Cursor

/-- Passes empty lines; a tab is no indentation. -/
def emptyLinesFrom : (ends : List Char) → (deepest : Nat) → Place → List Char → Option EmptyLines
  | ends, deepest, place, [] => some ⟨ends, max deepest place.column, ⟨place, []⟩⟩
  | ends, deepest, place, c :: cs =>
    if c = ' ' then emptyLinesFrom ends deepest (place.after c) cs
    else if c = '\t' then none
    else if isBreak c then emptyLinesFrom (c :: ends) (max deepest place.column) (place.after c) cs
    else some ⟨ends, max deepest place.column, ⟨place, c :: cs⟩⟩

/-- How the lines of a block scalar are read. -/
structure BlockStyle where
  isLiteral : Bool
  indent : Nat
  chomping : Chomping

/-- Scans the lines of a block scalar from inside a line or from the indentation of one. The gap is
what was passed since the last line; `wasBlank` tells whether that line starts with a blank. -/
def BlockStyle.linesFrom (style : BlockStyle) :
    (inLine : Bool) → (gap : Gap) → (wasBlank : Bool) → (found : List Char) → Place → List Char →
      Option Scanned
  | _, gap, _, found, place, [] =>
    some (.ofReversed (style.chomping.tail gap ++ found) ⟨place, []⟩ true)
  | true, gap, wasBlank, found, place, c :: cs =>
    if isBreak c then
      style.linesFrom false (.breaks (some c) []) wasBlank found (place.after c) cs
    else style.linesFrom true gap wasBlank (c :: found) (place.after c) cs
  | false, gap, wasBlank, found, place, c :: cs =>
    if place.column < style.indent && c = ' ' then
      style.linesFrom false gap wasBlank found (place.after c) cs
    else if place.column < style.indent && c = '\t' then none
    else if isBreak c then
      style.linesFrom false (gap.addBreak c) wasBlank found (place.after c) cs
    else if place.column = style.indent then
      let passed := if style.isLiteral || wasBlank || isBlank c then gap.kept else gap.folded
      style.linesFrom true (.breaks none []) (isBlank c) (c :: (passed ++ found)) (place.after c) cs
    else some (.ofReversed (style.chomping.tail gap ++ found) ⟨place, c :: cs⟩ true)

/-- Scans a block scalar behind its first mark. Its lines start at column `least` or beyond, and not
at the start of the line. -/
def blockScalar? (isLiteral : Bool) (least : Nat) (cursor : Cursor) : Option Scanned := do
  let (header, after) ← BlockHeader.read? cursor
  match header.increment with
  | some n =>
    let style : BlockStyle := ⟨isLiteral, least - 1 + n, header.chomping⟩
    style.linesFrom false (.breaks none []) false [] after.place after.rest
  | none =>
    let lines ← emptyLinesFrom [] 0 after.place after.rest
    let style : BlockStyle := ⟨isLiteral, max lines.deepest (max least 1), header.chomping⟩
    style.linesFrom false (.breaks none lines.ends) false [] lines.after.place lines.after.rest

end DecompTracker.Yaml
