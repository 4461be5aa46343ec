import DecompTracker.Text.Split

/-! Paths as they are written, with slashes between their pieces. Joining works on the text, while
comparing, stripping and taking apart work on components, which leave out empty pieces and all
pieces `.` but a leading one. A step to the parent directory is a component and never resolved. -/
namespace DecompTracker

structure Path where
  text : String
  deriving DecidableEq, Inhabited

namespace Path

inductive Component where
  | root
  | here
  | parent
  | name (s : String)
  deriving DecidableEq

def isAbsolute (p : Path) : Bool := p.text.toList.head? == some '/'

/-- What stands between the slashes. -/
def pieces (p : Path) : List String := Text.splitAtChar '/' p.text

def ofPieces (pieces : List String) : Path := ⟨"/".intercalate pieces⟩

/-- Whether a piece leads nowhere else. -/
def isIdle (piece : String) : Bool := piece = "" || piece = "."

/-- Idle pieces are passed over. -/
def component? : String → Option Component
  | "" => none
  | "." => none
  | ".." => some .parent
  | s => some (.name s)

/-- What a path starts from, when it says so. -/
def start? (p : Path) : Option Component :=
  if p.isAbsolute then some .root else if p.pieces.head? = some "." then some .here else none

def components (p : Path) : List Component := p.start?.toList ++ p.pieces.filterMap component?

/-- Whether a path does nothing but name the directory it starts from. -/
def isHere (p : Path) : Bool := p.components = [.here]

/-- One slash is put in between unless there is one or nothing stands before it. An absolute path
replaces what it is joined to. -/
def join (base p : Path) : Path :=
  if p.isAbsolute then p
  else if base.text = "" || base.text.toList.getLast? = some '/' then ⟨base.text ++ p.text⟩
  else ⟨base.text ++ "/" ++ p.text⟩

def dropIdleEnd (pieces : List String) : List String := (pieces.reverse.dropWhile isIdle).reverse

/-- Joins what stands before the first slash with the rest. -/
def ofHeadTail (head : String) (tail : List String) : Path :=
  if head = "" && tail.isEmpty then ⟨"/"⟩ else ofPieces (head :: tail)

/-- The same path without idle pieces and slashes at its end. -/
def trimEnd (p : Path) : Path :=
  match p.pieces with
  | head :: next :: tail => ofHeadTail head (dropIdleEnd (next :: tail))
  | _ => p

/-- The pieces after the first `count` that are not idle. -/
def dropFilled : Nat → List String → List String
  | 0, ps => ps
  | _, [] => []
  | n + 1, p :: ps => if isIdle p then dropFilled (n + 1) ps else dropFilled n ps

/-- The rest of a path that starts with the components of another. -/
def stripPrefix? (p base : Path) : Option Path :=
  if base.components.isPrefixOf p.components then
    if base.components.isEmpty then some p.trimEnd
    else
      let rest := dropFilled (base.pieces.filterMap component?).length p.pieces
      some (ofPieces (dropIdleEnd (rest.dropWhile isIdle)))
  else none

/-- The path without its last component; the root has none that could be left out. -/
def parent? (p : Path) : Option Path :=
  match p.pieces with
  | [] => none
  | head :: tail =>
    match dropIdleEnd tail with
    | [] => if head = "" then none else some ⟨""⟩
    | last :: front => some (ofHeadTail head (dropIdleEnd (last :: front).dropLast))

/-- The last component when it is a name. -/
def fileName? (p : Path) : Option String :=
  match p.components.getLast? with
  | some (.name s) => some s
  | _ => none

/-- What follows the last dot of the file name, unless the name starts with that dot. -/
def extension? (p : Path) : Option String :=
  match (p.fileName?.map (Text.splitAtChar '.')).map List.reverse with
  | some (last :: before :: []) => if before = "" then none else some last
  | some (last :: _ :: _) => some last
  | _ => none

theorem ofPieces_pieces (p : Path) : ofPieces p.pieces = p := by
  have h := Text.intercalate_splitChars '/' p.text.toList
  cases p with
  | mk text =>
    simp only [ofPieces, pieces, Text.splitAtChar, Path.mk.injEq]
    apply String.toList_injective
    simpa [String.toList_intercalate, Function.comp_def] using h

theorem join_of_isAbsolute {base p : Path} (h : p.isAbsolute) : base.join p = p := by
  simp [join, h]

end Path

end DecompTracker
