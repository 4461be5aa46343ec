import DecompTracker.Path
import DecompTracker.SortedMap

/-! Trees of directories and files. A path is walked piece by piece: every piece is looked up in the
directory reached so far, `..` leads back to the directory that one lies in, and an idle piece stays
there. Only what exists can be walked through. -/
namespace DecompTracker

inductive FileTree.Entry where
  | file (bytes : ByteArray)
  | directory
  deriving Inhabited

/-- A place in a tree: the names from the root down. -/
abbrev FileTree.Place := List String

/-- What lies at each place; the root is a directory without an entry. -/
structure FileTree where
  entries : SortedMap FileTree.Place FileTree.Entry

namespace FileTree

def empty : FileTree := ⟨.empty⟩

instance : Inhabited FileTree := ⟨empty⟩

def get? (t : FileTree) (place : Place) : Option Entry :=
  if place = [] then some .directory else t.entries.get? place

def isDirectoryAt (t : FileTree) (place : Place) : Bool :=
  match t.get? place with
  | some .directory => true
  | _ => false

def fileAt? (t : FileTree) (place : Place) : Option ByteArray :=
  match t.get? place with
  | some (.file bytes) => some bytes
  | _ => none

/-- The place a piece leads to from another place. -/
def step (t : FileTree) (place : Place) (piece : String) : Option Place :=
  if t.isDirectoryAt place then
    if Path.isIdle piece then some place
    else if piece = ".." then some place.dropLast
    else if (t.get? (place ++ [piece])).isSome then some (place ++ [piece])
    else none
  else none

def walk (t : FileTree) (start : Place) (pieces : List String) : Option Place :=
  pieces.foldlM t.step start

/-- Names are limited in length, and none holds the null character. -/
def isName (name : String) : Bool :=
  !Path.isIdle name && name ≠ ".." && name.utf8ByteSize ≤ 255 && !name.toList.contains '\x00'

def put (t : FileTree) (place : Place) (entry : Entry) : FileTree :=
  ⟨t.entries.insert place entry⟩

/-- A file is written into a directory that exists, in place of a file or of nothing. -/
def writeAt? (t : FileTree) (directory : Place) (name : String) (bytes : ByteArray) :
    Option FileTree :=
  if t.isDirectoryAt directory && isName name && !t.isDirectoryAt (directory ++ [name]) then
    some (t.put (directory ++ [name]) (.file bytes))
  else none

/-- The tree with the directories made so far, and whether the way could be gone to its end. -/
structure Made where
  tree : FileTree
  isComplete : Bool

/-- Goes along the pieces and makes every directory that is missing. -/
def makeDirectories (t : FileTree) (place : Place) : List String → Made
  | [] => ⟨t, t.isDirectoryAt place⟩
  | piece :: pieces =>
    match t.step place piece with
    | some next => makeDirectories t next pieces
    | none =>
      if t.isDirectoryAt place && isName piece then
        makeDirectories (t.put (place ++ [piece]) .directory) (place ++ [piece]) pieces
      else ⟨t, false⟩

/-- The names of the files directly in a directory, in increasing order. -/
def fileNamesAt (t : FileTree) (directory : Place) : List String :=
  t.entries.entries.filterMap fun e =>
    match e.2 with
    | .file _ => if e.1.dropLast = directory then e.1.getLast? else none
    | .directory => none

theorem get?_nil (t : FileTree) : t.get? [] = some .directory := by simp [get?]

theorem get?_put_self (t : FileTree) {place : Place} (entry : Entry) (h : place ≠ []) :
    (t.put place entry).get? place = some entry := by
  simp [put, get?, h]

theorem get?_put_of_ne (t : FileTree) {place other : Place} (entry : Entry) (h : other ≠ place) :
    (t.put place entry).get? other = t.get? other := by
  simp [put, get?, SortedMap.get?_insert_of_ne _ _ h]

end FileTree

end DecompTracker
