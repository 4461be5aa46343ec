import DecompTracker.CommandLine.Arguments
import DecompTracker.Project.Reports
import DecompTracker.Symbol

/-! The commands. Each one ends with the lines it prints or with a failure, and prints nothing when
it fails. -/
namespace DecompTracker

open Project

/-- A symbol and the name in it. -/
structure DecodedSymbol where
  raw : String
  name : QualifiedName
  deriving DecidableEq

namespace DecodedSymbol

def ofRaw (raw : String) : DecodedSymbol := { raw, name := Symbol.decode raw }

def toJson (s : DecodedSymbol) : Json :=
  .ofMembers [("raw", .ofText s.raw), ("mangled", .bool (Symbol.isMangled s.raw)),
    ("name", JsonForm.toJson s.name), ("segments", JsonForm.toJson s.name.segments)]

def line (s : DecodedSymbol) : String := s!"{s.raw} -> {s.name.joined}"

end DecodedSymbol

namespace CommandLine

variable {m : Type → Type} [Monad m] [FileStore m]

def toolName : String := "decomp-progress"

/-- The root a command works on. The present directory goes by its full path, any other root too if
it exists; one that does not is taken from the present directory as it is written. -/
def locate (root : Path) : m Path := do
  if root.isHere then FileStore.workingDirectory
  else
    match ← FileStore.canonical? root with
    | some found => return found
    | none => return (← FileStore.workingDirectory).join root

def demangle (symbols : List String) (asJson : Bool) : List String :=
  let decoded := symbols.map DecodedSymbol.ofRaw
  if asJson then [(Json.array (decoded.map DecodedSymbol.toJson)).pretty]
  else decoded.map DecodedSymbol.line

/-- The status of one class, which need not be in the class table. -/
def statusOf (root : Path) (name : String) : ExceptT Failure m ClassStatus := do
  let project : Project ← load (← (locate root : m Path))
  let functions ← loadFunctions project.functionsFile
  let overrides ← loadOverrides project.overridesDirectory
  return (OwnerIndex.ofList (functions.map FunctionEntry.resolve)).classify (.parse name) overrides

/-- A number in hexadecimal digits under their mark. -/
def hexText (n : Nat) : String := "0x" ++ String.ofList (Nat.toDigits 16 n)

def statusLines (c : ClassStatus) (asJson : Bool) : List String :=
  if asJson then [(toJson c).pretty]
  else
    [s!"Class: {c.name.joined}", s!"  Status: {c.status.word}", s!"  Methods: {c.methodCount}",
      s!"  Total binary size: {hexText c.totalSize}"]

/-- Makes the directories of a project and writes its first configuration. -/
def initProject (root : Path) (name? : Option String) : ExceptT Failure m (List String) := do
  let layout : Layout := ⟨← (locate root : m Path)⟩
  let config := Config.new (name?.getD (nameOfRoot layout.root))
  makeDirectories .metadata layout.metaDirectory
  makeDirectories .overrides layout.overridesDirectory
  makeDirectories .reports layout.reportsDirectory
  writeText (.configUnwritten layout.configFile) layout.configFile (toJson config).pretty
  return [
    "Initialized decompilation progress project:",
    s!"  Name: {config.name}",
    s!"  Root: {layout.root.text}",
    s!"  Config: {layout.configFile.text}",
    s!"  Namespaces: " ++ ", ".intercalate config.namespaces,
    s!"  Data dir: {layout.dataDirectory.text}",
    s!"  Overrides dir: {layout.overridesDirectory.text}",
    s!"  Reports dir: {layout.reportsDirectory.text}"]

/-- Which inputs of a project are there. -/
structure Presence where
  classes : Bool
  functions : Bool
  overrides : Bool
  deriving DecidableEq

def Presence.of (project : Project) : m Presence := do
  return {
    classes := ← FileStore.isFile project.classesFile
    functions := ← FileStore.isFile project.functionsFile
    overrides := ← FileStore.isDirectory project.overridesDirectory }

/-- Inputs are shown as seen from the root. -/
def projectJson (project : Project) (present : Presence) : Json :=
  let layout := project.layout
  .ofMembers
    [("name", toJson project.config.name),
      ("root", toJson layout.root),
      ("config_file", toJson layout.configFile),
      ("config_version", toJson project.config.version),
      ("namespaces", toJson project.config.namespaces),
      ("inputs", .ofMembers
        [("classes", toJson (layout.relative project.classesFile)),
          ("classes_present", .bool present.classes),
          ("functions", toJson (layout.relative project.functionsFile)),
          ("functions_present", .bool present.functions),
          ("overrides_dir", toJson (layout.relative project.overridesDirectory)),
          ("overrides_present", .bool present.overrides)]),
      ("layout", .ofMembers
        [("meta_dir", toJson layout.metaDirectory),
          ("data_dir", toJson layout.dataDirectory),
          ("overrides_dir", toJson layout.overridesDirectory),
          ("reports_dir", toJson layout.reportsDirectory)])]

def presenceLine (label : String) (path : Path) (isPresent : Bool) : String :=
  s!"- {label}: " ++ (if isPresent then "OK" else "MISSING") ++ s!" ({path.text})"

def directoryLine (label : String) (path : Path) : m String := do
  return presenceLine label path (← FileStore.isDirectory path)

def namespacesText (namespaces : List String) : String :=
  if namespaces.isEmpty then "(all)" else ", ".intercalate namespaces

def projectLines (project : Project) (present : Presence) : m (List String) := do
  let layout := project.layout
  return [
    "Decompilation Progress Project Info",
    "===================================",
    s!"Name: {project.config.name}",
    s!"Root: {layout.root.text}",
    s!"Config file: {layout.configFile.text}",
    s!"Config version: {project.config.version}",
    "Namespaces: " ++ namespacesText project.config.namespaces,
    "",
    "Inputs:",
    presenceLine "Classes" project.classesFile present.classes,
    presenceLine "Functions" project.functionsFile present.functions,
    presenceLine "Overrides dir" project.overridesDirectory present.overrides,
    "",
    "Directories:",
    ← directoryLine "Meta dir (.progress)" layout.metaDirectory,
    ← directoryLine "Data dir" layout.dataDirectory,
    ← directoryLine "Reports dir" layout.reportsDirectory]

def projectInfo (root : Path) (asJson : Bool) : ExceptT Failure m (List String) := do
  let project : Project ← load (← (locate root : m Path))
  let present ← (Presence.of project : m Presence)
  if asJson then return [(projectJson project present).pretty]
  else (projectLines project present : m (List String))

/-- A single wanted shape is printed alone. -/
def printedReport (report : Report) : Json :=
  match report.tree?, report.graph? with
  | some tree, none => tree.toJson
  | none, some graph => graph.toJson
  | _, _ => report.toJson

def writtenLines (project : Project) (summary : Summary) (written : WrittenReport) : List String :=
  [s!"Built progress report for {project.config.name}:",
    s!"  Classes: {summary.classes}",
    s!"  Decompiled: {summary.counts.decompiled}",
    s!"  Partially decompiled: {summary.counts.partly}",
    s!"  Undecompiled: {summary.counts.undecompiled}",
    s!"  Matched methods: {summary.methods} of {summary.functions} functions"] ++
  (written.tree?.map fun path => s!"  Tree: {path.text}").toList ++
  (written.graph?.map fun path => s!"  Graph: {path.text}").toList ++
  [s!"  Summary: {written.summary.text}"]

def formatOfWord (word : String) : Except Failure ReportFormat :=
  match ReportFormat.ofWord? word with
  | some format => .ok format
  | none => .error (.unknownFormat word)

def buildReport (root : Path) (formatWord : String) (isPrinted : Bool) :
    ExceptT Failure m (List String) := do
  let format ← formatOfWord formatWord
  let (project, report) ← report (← (locate root : m Path)) format
  if isPrinted then return [(printedReport report).pretty]
  else return writtenLines project report.summary (← writeReport project report)

def Command.run : Command → ExceptT Failure m (List String)
  | initProject root name? => CommandLine.initProject root name?
  | projectInfo root asJson => CommandLine.projectInfo root asJson
  | demangle symbols asJson => return CommandLine.demangle symbols asJson
  | classifyClass root name asJson => return statusLines (← statusOf root name) asJson
  | buildReport root format isPrinted => CommandLine.buildReport root format isPrinted

/-- How a run of the program ends. -/
inductive Outcome where
  | printed (lines : List String)
  | failed (failure : Failure)
  | misused
  deriving DecidableEq

namespace Outcome

def exitCode : Outcome → Nat
  | printed _ => 0
  | failed _ => 1
  | misused => 2

/-- Every line is ended. -/
def output : Outcome → String
  | printed lines => String.join (lines.map (· ++ "\n"))
  | _ => ""

end Outcome

def usageLines : List String :=
  ["Usage: " ++ toolName ++ " COMMAND",
    "",
    "Commands:",
    "  init-project [--root DIR] [--name NAME]",
    "  project-info [--root DIR] [--json]",
    "  demangle SYMBOL... [--json]",
    "  classify-class --name CLASS [--root DIR] [--json]",
    "  build-report [--root DIR] [--format tree|graph|both] [--stdout]"]

def run (args : List String) : m Outcome := do
  match Request.ofArguments? args with
  | none => return .misused
  | some .help => return .printed usageLines
  | some .version => return .printed [toolName ++ " " ++ toolVersion]
  | some (.run command) =>
    match ← command.run.run with
    | .ok lines => return .printed lines
    | .error failure => return .failed failure

end CommandLine

end DecompTracker
