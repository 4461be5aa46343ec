import DecompTracker.Path

/-! Where the parts of a project lie under its root. -/
namespace DecompTracker.Project

structure Layout where
  root : Path
  deriving DecidableEq

namespace Layout

def metaDirectory (l : Layout) : Path := l.root.join ⟨".progress"⟩

def configFile (l : Layout) : Path := l.metaDirectory.join ⟨"project.json"⟩

def dataDirectory (l : Layout) : Path := l.root.join ⟨"data"⟩

def overridesDirectory (l : Layout) : Path := l.dataDirectory.join ⟨"overrides"⟩

def reportsDirectory (l : Layout) : Path := l.root.join ⟨"reports"⟩

/-- Configured paths start from the root unless they are absolute. -/
def resolve (l : Layout) (configured : Path) : Path := l.root.join configured

/-- A path as seen from the root; one that does not lie under it stays as it is. -/
def relative (l : Layout) (p : Path) : Path := (p.stripPrefix? l.root).getD p

end Layout

/-- A project is called after its root, if that has a name. -/
def nameOfRoot (root : Path) : String := root.fileName?.getD "unnamed-project"

end DecompTracker.Project
