import DecompTracker.ClassStatus

/-! The shapes a class hierarchy is given in: a nested tree under one root, or a flat graph whose
edges tell containment and dependency apart. -/
namespace DecompTracker.Hierarchy

abbrev NodeId := Nat

/-- The name of the node that stands for no scope and holds all outermost ones. -/
def rootName : String := "root"

/-- A node is a class when details are known for it, and a namespace otherwise. -/
inductive NodeKind where
  | scope
  | classified (status : StatusKind)
  deriving DecidableEq

namespace NodeKind

def ofDetails : Option ClassDetails → NodeKind
  | none => .scope
  | some details => .classified details.status

def word : NodeKind → String
  | .scope => "namespace"
  | .classified status => status.word

def isClass : NodeKind → Bool
  | .scope => false
  | .classified _ => true

end NodeKind

inductive Tree where
  | node (id : NodeId) (name : String) (details : Option ClassDetails) (children : List Tree)

namespace Tree

def id : Tree → NodeId
  | node id _ _ _ => id

def name : Tree → String
  | node _ name _ _ => name

def details : Tree → Option ClassDetails
  | node _ _ details _ => details

def children : Tree → List Tree
  | node _ _ _ children => children

def kind (t : Tree) : NodeKind := .ofDetails t.details

mutual

/-- All nodes, each before its children. -/
def nodes : Tree → List Tree
  | node id name details children => node id name details children :: nodesOf children

def nodesOf : List Tree → List Tree
  | [] => []
  | t :: ts => t.nodes ++ nodesOf ts

end

def count (t : Tree) : Nat := t.nodes.length

def classCount (t : Tree) : Nat := t.nodes.countP fun n => n.kind.isClass

/-- The first node with the given name, a node coming before its children. -/
def find? (t : Tree) (name : String) : Option Tree := t.nodes.find? fun n => n.name == name

end Tree

structure FlatNode where
  id : NodeId
  name : String
  kind : NodeKind
  deriving DecidableEq

/-- Edges run from a scope to what lies directly in it, or from a class to one it refers to. -/
inductive EdgeKind where
  | contains
  | dependsOn
  deriving DecidableEq, Repr

def EdgeKind.word : EdgeKind → String
  | .contains => "Contains"
  | .dependsOn => "DependsOn"

structure Edge where
  source : NodeId
  target : NodeId
  kind : EdgeKind
  deriving DecidableEq

structure Graph where
  nodes : List FlatNode
  edges : List Edge
  deriving DecidableEq

def Graph.edgesOfKind (g : Graph) (kind : EdgeKind) : List Edge :=
  g.edges.filter fun e => e.kind = kind

end DecompTracker.Hierarchy
