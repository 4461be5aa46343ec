import DecompTracker.Path
import DecompTracker.Report.Basic

/-! What a project is configured to be: its name, the namespaces it is about, the files its inputs
come from and those its reports go to. -/
namespace DecompTracker.Project

/-- The version of the tool. -/
def toolVersion : String := "0.1.0"

structure InputPaths where
  classes : Path
  functions : Path
  overrides : Path
  deriving DecidableEq

def InputPaths.standard : InputPaths where
  classes := ⟨"data/classes.json"⟩
  functions := ⟨"data/functions.csv"⟩
  overrides := ⟨"data/overrides"⟩

structure OutputPaths where
  tree : Path
  graph : Path
  summary : Path
  deriving DecidableEq

def OutputPaths.standard : OutputPaths where
  tree := ⟨"reports/tree.json"⟩
  graph := ⟨"reports/graph.json"⟩
  summary := ⟨"reports/summary.json"⟩

def standardNamespaces : List String := ["ksys", "uking"]

structure Config where
  name : String
  description? : Option String
  /-- The version of the configuration format. -/
  version : String
  namespaces : List String
  inputs : InputPaths
  outputs : OutputPaths
  deriving DecidableEq

namespace Config

/-- The configuration a new project starts with. -/
def new (name : String) : Config where
  name := name
  description? := none
  version := "0.1.0"
  namespaces := standardNamespaces
  inputs := .standard
  outputs := .standard

def namespaceFilter (c : Config) : NamespaceFilter := .ofList c.namespaces

end Config

/-- The digest of every input a report was made from, override tables by file name. -/
structure InputHashes where
  classes : String
  functions : String
  overrides : List (String × String)
  deriving DecidableEq

/-- What the summary of a report says, and of which inputs. -/
structure SummaryFile where
  project : String
  toolVersion : String
  inputs : InputHashes
  summary : Summary
  deriving DecidableEq

end DecompTracker.Project
