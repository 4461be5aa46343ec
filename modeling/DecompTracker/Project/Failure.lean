import DecompTracker.Hierarchy.Conflict
import DecompTracker.Path
import DecompTracker.Tables.Functions

/-! Why a command could not be carried out. A failure is told as its own message followed by those
of its causes; what the store of files or the reader of a text format has to say is only named. -/
namespace DecompTracker.Project

/-- The files a project is read from. -/
inductive InputKind where
  | config
  | classes
  | functions
  | overrideTable
  deriving DecidableEq

inductive TextFormat where
  | json
  | yaml
  deriving DecidableEq

/-- The directories a project makes: for its own data, and for whatever is written. -/
inductive DirectoryKind where
  | metadata
  | overrides
  | reports
  | output
  deriving DecidableEq

inductive Failure where
  | unreadable (kind : InputKind) (path : Path)
  | malformed (kind : InputKind) (path : Path) (format : TextFormat)
  | badAddress (cause : AddressError)
  | badFunctionLines (path : Path) (cause : TableError)
  | unlisted (directory : Path)
  | cannotOpen (path : Path)
  | cannotHash (path : Path)
  | inconsistent (cause : Hierarchy.Inconsistency)
  | noDirectory (kind : DirectoryKind) (path : Path)
  | configUnwritten (path : Path)
  | unwritten (path : Path)
  | unknownFormat (word : String)
  deriving DecidableEq

/-- One member of the chain of causes. -/
inductive Cause where
  | text (s : String)
  | files
  | format (f : TextFormat)
  deriving DecidableEq

namespace Failure

def unreadableMessage (path : Path) : InputKind → String
  | .config => s!"Failed to read project config at {path.text}"
  | .classes => s!"Failed to read classes file at {path.text}"
  | .functions => s!"Failed to read functions file at {path.text}"
  | .overrideTable => s!"Failed to read override table {path.text}"

def malformedMessage (path : Path) : InputKind → String
  | .config => "Failed to parse project config JSON"
  | .classes => s!"Failed to parse classes JSON at {path.text}"
  | .functions => s!"Failed to parse functions JSON at {path.text}"
  | .overrideTable => s!"Failed to parse override table {path.text}"

def directoryMessage (path : Path) : DirectoryKind → String
  | .metadata => s!"Failed to create meta dir: {path.text}"
  | .overrides => s!"Failed to create overrides dir: {path.text}"
  | .reports => s!"Failed to create reports dir: {path.text}"
  | .output => s!"Failed to create directory {path.text}"

def message : Failure → String
  | unreadable kind path => unreadableMessage path kind
  | malformed kind path _ => malformedMessage path kind
  | badAddress cause => cause.message
  | badFunctionLines path _ => s!"Failed to parse functions CSV at {path.text}"
  | unlisted directory => s!"Failed to read {directory.text}"
  | cannotOpen path => s!"Failed to open input for hashing: {path.text}"
  | cannotHash path => s!"Failed to read input for hashing: {path.text}"
  | inconsistent _ => "Failed to build class hierarchy"
  | noDirectory kind path => directoryMessage path kind
  | configUnwritten path => s!"Failed to write project config: {path.text}"
  | unwritten path => s!"Failed to write {path.text}"
  | unknownFormat word => s!"Invalid format '{word}'. Allowed: tree, graph, both"

/-- What lies behind a failure, nearest first. -/
def causes : Failure → List Cause
  | malformed _ _ format => [.format format]
  | badAddress cause => [.text cause.cause.message]
  | badFunctionLines _ cause => cause.messages.map .text
  | inconsistent cause => [.text cause.message]
  | unknownFormat _ => []
  | _ => [.files]

end Failure

end DecompTracker.Project
