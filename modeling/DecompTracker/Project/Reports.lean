import DecompTracker.Project.Inputs
import DecompTracker.Sha256

/-! Reporting on a project: building the report from its inputs, and writing the wanted parts and a
summary that tells the digests of the inputs. The inputs are listed and hashed when the tree and the
graph have been written. -/
namespace DecompTracker.Project

variable {m : Type → Type} [Monad m] [FileStore m]

/-- The report on the project at a root. -/
def report (root : Path) (format : ReportFormat) : ExceptT Failure m (Project × Report) := do
  let project : Project ← load root
  let snapshot ← project.loadSnapshot
  let report ← (Report.build snapshot project.config.namespaceFilter format).mapError
    Failure.inconsistent
  return (project, report)

/-- The digest of a file. -/
def hashFile (path : Path) : ExceptT Failure m String := do
  match ← (FileStore.read? path : m (Option ByteArray)) with
  | some bytes => return Sha256.hexDigest bytes
  | none =>
    if ← (FileStore.isDirectory path : m Bool) then throw (.cannotHash path)
    else throw (.cannotOpen path)

def hashOverrides (directory : Path) : ExceptT Failure m (List (String × String)) := do
  (← overrideFiles directory).mapM fun path => do
    return (path.fileName?.getD "", ← hashFile path)

def hashInputs (project : Project) : ExceptT Failure m InputHashes := do
  let overrides ← hashOverrides project.overridesDirectory
  return {
    classes := ← hashFile project.classesFile
    functions := ← hashFile project.functionsFile
    overrides }

def makeDirectories (kind : DirectoryKind) (path : Path) : ExceptT Failure m Unit := do
  unless ← (FileStore.makeDirectories path : m Bool) do throw (.noDirectory kind path)

def writeText (failure : Failure) (path : Path) (text : String) : ExceptT Failure m Unit := do
  unless ← (FileStore.write path text.toUTF8 : m Bool) do throw failure

/-- Writes a value into a file, making the directories it lies in. -/
def writeJson (path : Path) (value : Json) : ExceptT Failure m Unit := do
  if let some directory := path.parent? then makeDirectories .output directory
  writeText (.unwritten path) path value.pretty

/-- Where the parts of a report were written. -/
structure WrittenReport where
  tree? : Option Path
  graph? : Option Path
  summary : Path
  deriving DecidableEq

/-- Writes a part of a report if there is one. -/
def writePart (path : Path) : Option Json → ExceptT Failure m (Option Path)
  | some value => do
    writeJson path value
    return some path
  | none => return none

def writeReport (project : Project) (report : Report) : ExceptT Failure m WrittenReport := do
  let outputs := project.config.outputs
  let resolve := project.layout.resolve
  let tree? ← writePart (resolve outputs.tree) (report.tree?.map Hierarchy.Tree.toJson)
  let graph? ← writePart (resolve outputs.graph) (report.graph?.map Hierarchy.Graph.toJson)
  let file : SummaryFile := {
    project := project.config.name
    toolVersion
    inputs := ← hashInputs project
    summary := report.summary }
  let summary := resolve outputs.summary
  writeJson summary (toJson file)
  return { tree?, graph?, summary }

end DecompTracker.Project
