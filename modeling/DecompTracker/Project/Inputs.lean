import DecompTracker.FileStore
import DecompTracker.Forms.Project
import DecompTracker.Project.Failure
import DecompTracker.Project.Layout
import DecompTracker.Tables.Classes
import DecompTracker.Tables.Overrides

/-! Reading a project: its configuration, then the class table, the function table and the override
tables it names. The first file that cannot be read or understood ends the reading. -/
namespace DecompTracker

open Project

variable {m : Type → Type} [Monad m] [FileStore m]

namespace Project

/-- The text of a file, which has to be valid. -/
def readText (kind : InputKind) (path : Path) : ExceptT Failure m String := do
  match (← (FileStore.read? path : m (Option ByteArray))).bind String.fromUTF8? with
  | some text => return text
  | none => throw (.unreadable kind path)

def orFail {α : Type} (failure : Failure) : Option α → ExceptT Failure m α
  | some a => return a
  | none => throw failure

def loadConfig (layout : Layout) : ExceptT Failure m Config := do
  let text ← readText .config layout.configFile
  orFail (.malformed .config layout.configFile .json) (JsonForm.ofText? text)

def loadClasses (path : Path) : ExceptT Failure m Hierarchy.DependencyMap := do
  let text ← readText .classes path
  let table ← orFail (.malformed .classes path .json) ((Json.parse? text).bind ClassTable.ofJson?)
  return table.dependencies

/-- The functions in the rows of a JSON table. -/
def entriesOfRows (path : Path) (text : String) : Except Failure (List FunctionEntry) :=
  match (JsonForm.ofText? text : Option (List FunctionRow)) with
  | some rows => (rows.mapM FunctionRow.entry).mapError .badAddress
  | none => .error (.malformed .functions path .json)

/-- The extension of the file tells how the table is written. -/
def loadFunctions (path : Path) : ExceptT Failure m (List FunctionEntry) := do
  let text ← readText .functions path
  if path.extension? = some "json" then entriesOfRows path text
  else (functionsOfCsv text).mapError (Failure.badFunctionLines path)

def isTableName (name : String) : Bool :=
  match Path.extension? ⟨name⟩ with
  | some extension => ["yaml", "yml", "json"].contains extension
  | none => false

/-- The override tables directly in a directory, by increasing name. A missing directory holds
none. -/
def overrideFiles (directory : Path) : ExceptT Failure m (List Path) := do
  if ← (FileStore.isDirectory directory : m Bool) then
    let names ← orFail (.unlisted directory)
      (← (FileStore.fileNames? directory : m (Option (List String))))
    return (names.filter isTableName).map fun name => directory.join ⟨name⟩
  else return []

def overrideFormat (path : Path) : TextFormat :=
  if path.extension? = some "json" then .json else .yaml

def overrideFile? (text : String) : TextFormat → Option OverrideFile
  | .json => OverrideFile.ofJson? text
  | .yaml => OverrideFile.ofYaml? text

/-- Adds the table in a file to those already read. -/
def loadOverrideFile (table : OverrideTable) (path : Path) : ExceptT Failure m OverrideTable := do
  let text ← readText .overrideTable path
  let format := overrideFormat path
  let file ← orFail (.malformed .overrideTable path format) (overrideFile? text format)
  return file.addTo table

def loadOverrides (directory : Path) : ExceptT Failure m OverrideTable := do
  (← overrideFiles directory).foldlM loadOverrideFile .empty

end Project

/-- A project that was found at its root. -/
structure Project where
  layout : Layout
  config : Config
  deriving DecidableEq

namespace Project

def load (root : Path) : ExceptT Failure m Project := do
  let layout : Layout := ⟨root⟩
  return { layout, config := ← loadConfig layout }

def classesFile (project : Project) : Path := project.layout.resolve project.config.inputs.classes

def functionsFile (project : Project) : Path :=
  project.layout.resolve project.config.inputs.functions

def overridesDirectory (project : Project) : Path :=
  project.layout.resolve project.config.inputs.overrides

def loadSnapshot (project : Project) : ExceptT Failure m Snapshot := do
  return {
    classes := ← loadClasses project.classesFile
    functions := ← loadFunctions project.functionsFile
    overrides := ← loadOverrides project.overridesDirectory }

end Project

end DecompTracker
