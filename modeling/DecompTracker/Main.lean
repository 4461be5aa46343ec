import DecompTracker.CommandLine.Commands

/-! The program: commands on the files of the system it runs on. Lines go to the standard output,
what went wrong goes to the standard error output. -/
namespace DecompTracker

/-- What an action gives, unless it fails. -/
def attempt {α : Type} (action : IO α) : IO (Option α) := do
  try return some (← action) catch _ => return none

/-- Whether an action can be carried out. -/
def succeeds (action : IO Unit) : IO Bool := return (← attempt action).isSome

def isFileType (path : Path) (type : IO.FS.FileType) : IO Bool := do
  match ← attempt (do (← IO.FS.realPath path.text).metadata) with
  | some found => return found.type == type
  | none => return false

/-- The names of the files that an open directory lists. -/
def listedFiles (directory : Path) : IO (List String) := do
  let entries ← (← IO.FS.realPath directory.text).readDir
  let files ← entries.toList.filterM fun entry => do
    return (← entry.path.symlinkMetadata).type == .file
  return (files.map IO.FS.DirEntry.fileName).mergeSort fun a b => a ≤ b

instance : FileStore IO where
  workingDirectory := return ⟨(← IO.currentDir).toString⟩
  canonical? path := attempt (do return ⟨(← IO.FS.realPath path.text).toString⟩)
  isFile path := isFileType path .file
  isDirectory path := isFileType path .dir
  read? path := attempt (IO.FS.readBinFile path.text)
  fileNames? path := attempt (listedFiles path)
  makeDirectories path := succeeds (IO.FS.createDirAll path.text)
  write path bytes := succeeds (IO.FS.writeBinFile path.text bytes)

open Project CommandLine

def causeText : Cause → String
  | .text s => s
  | .files => "the file or directory cannot be used"
  | .format .json => "the text is not the expected JSON"
  | .format .yaml => "the text is not the expected YAML"

/-- What is said about a run besides its output. -/
def complaints : Outcome → List String
  | .printed _ => []
  | .misused => "error: wrong arguments" :: "" :: usageLines
  | .failed failure =>
    ("Error: " ++ failure.message) ::
      match failure.causes with
      | [] => []
      | causes => "" :: "Caused by:" :: causes.map fun cause => "    " ++ causeText cause

/-- Carries out the command in the arguments. -/
def runProgram (args : List String) : IO UInt32 := do
  let outcome ← CommandLine.run args
  IO.print outcome.output
  for line in complaints outcome do IO.eprintln line
  return UInt32.ofNat outcome.exitCode

end DecompTracker

def main (args : List String) : IO UInt32 := DecompTracker.runProgram args
