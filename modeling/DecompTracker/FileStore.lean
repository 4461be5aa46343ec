import DecompTracker.FileTree

/-! What commands need from the place where files are kept, and the store whose files are one value.
A call that cannot be carried out says so and nothing more; making directories may have made some of
them by then. -/
namespace DecompTracker

class FileStore (m : Type → Type) where
  workingDirectory : m Path
  /-- Leads to the same place without idle pieces and steps back; nothing if there is no such place. -/
  canonical? : Path → m (Option Path)
  isFile : Path → m Bool
  isDirectory : Path → m Bool
  read? : Path → m (Option ByteArray)
  /-- The files directly in a directory, in increasing order. -/
  fileNames? : Path → m (Option (List String))
  /-- Makes a directory and those it lies in, as far as they are missing. -/
  makeDirectories : Path → m Bool
  write : Path → ByteArray → m Bool

/-- A tree of files and the directory that paths start from. -/
structure Machine where
  files : FileTree
  workingDirectory : FileTree.Place

namespace Machine

/-- Where a path starts: it has to hold something, but not the null character. -/
def start? (machine : Machine) (p : Path) : Option FileTree.Place :=
  if p.text = "" || p.text.toList.contains '\x00' then none
  else if p.isAbsolute then some []
  else some machine.workingDirectory

/-- Where a path leads when it is followed piece by piece, however long it is. -/
def resolve? (machine : Machine) (p : Path) : Option FileTree.Place := do
  machine.files.walk (← machine.start? p) p.pieces

/-- The longest path that a call can be given, in bytes. -/
def longestPath : Nat := 4095

/-- Where a path given to a call starts. -/
def begin? (machine : Machine) (p : Path) : Option FileTree.Place :=
  if p.text.utf8ByteSize ≤ longestPath then machine.start? p else none

def find? (machine : Machine) (p : Path) : Option FileTree.Place := do
  machine.files.walk (← machine.begin? p) p.pieces

def pathOf (place : FileTree.Place) : Path := ⟨"/" ++ "/".intercalate place⟩

def read? (machine : Machine) (p : Path) : Option ByteArray := do
  machine.files.fileAt? (← machine.find? p)

def isDirectory (machine : Machine) (p : Path) : Bool :=
  (machine.find? p).any machine.files.isDirectoryAt

def fileNames? (machine : Machine) (p : Path) : Option (List String) := do
  let place ← machine.find? p
  if machine.files.isDirectoryAt place then some (machine.files.fileNamesAt place) else none

/-- The last piece of the path names the file. -/
def write? (machine : Machine) (p : Path) (bytes : ByteArray) : Option Machine := do
  let directory ← machine.files.walk (← machine.begin? p) p.pieces.dropLast
  let files ← machine.files.writeAt? directory (← p.pieces.getLast?) bytes
  return { machine with files }

/-- For the empty path there is nothing to make. -/
def makeDirectories (machine : Machine) (p : Path) : Bool × Machine :=
  match machine.begin? p with
  | none => (p.text = "", machine)
  | some place =>
    let made := machine.files.makeDirectories place p.pieces
    (made.isComplete, { machine with files := made.tree })

end Machine

instance : FileStore (StateM Machine) where
  workingDirectory machine := (Machine.pathOf machine.workingDirectory, machine)
  canonical? p machine := ((machine.resolve? p).map Machine.pathOf, machine)
  isFile p machine := ((machine.read? p).isSome, machine)
  isDirectory p machine := (machine.isDirectory p, machine)
  read? p machine := (machine.read? p, machine)
  fileNames? p machine := (machine.fileNames? p, machine)
  makeDirectories p machine := machine.makeDirectories p
  write p bytes machine :=
    match machine.write? p bytes with
    | some written => (true, written)
    | none => (false, machine)

end DecompTracker
