import DecompTracker.Hierarchy.Basic
import DecompTracker.Hierarchy.Conflict
import DecompTracker.SortedMap

/-! Building a hierarchy class by class. A draft holds one node for each leading part of the names
added so far, numbered in the order of their first appearance, and an index from the written form
of each part to its node. A class that conflicts with earlier ones is given up where the conflict
shows, and building goes on so that all conflicts come out together. -/
namespace DecompTracker.Hierarchy

structure Node where
  name : String
  /-- The leading segments the node stands for. -/
  path : QualifiedName
  /-- The class whose addition made the node. -/
  origin : QualifiedName
  details : Option ClassDetails
  children : List NodeId
  deriving DecidableEq

def Node.kind (n : Node) : NodeKind := .ofDetails n.details

/-- A rooted draft has the synthetic root as node 0, above all outermost scopes. -/
structure Draft where
  rooted : Bool
  nodes : Array Node
  index : SortedMap String NodeId
  edges : Array Edge
  conflicts : Array Conflict

namespace Draft

def unrooted : Draft := ⟨false, #[], .empty, #[], #[]⟩

def rootNode : Node := ⟨rootName, .parse rootName, .parse rootName, none, []⟩

def withRoot : Draft := ⟨true, #[rootNode], .empty, #[], #[]⟩

def root? (d : Draft) : Option NodeId := if d.rooted then some 0 else none

def nodeCount (d : Draft) : Nat := d.nodes.size

/-- The node that stands for a written scope or class. The root is not looked up by name. -/
def lookup? (d : Draft) (written : String) : Option NodeId := d.index.get? written

def addConflict (d : Draft) (c : Conflict) : Draft := { d with conflicts := d.conflicts.push c }

/-- Attaches a node to its parent. The root needs no edges to what it holds. -/
def attach (d : Draft) (parent child : NodeId) : Draft :=
  { d with
    nodes := d.nodes.modify parent fun n => { n with children := n.children ++ [child] }
    edges :=
      if d.root? = some parent then d.edges else d.edges.push ⟨parent, child, .contains⟩ }

/-- Makes the node for the leading segments `path` of `origin`. -/
def create (d : Draft) (parent? : Option NodeId) (origin path : QualifiedName) : Draft :=
  let id := d.nodes.size
  let d := { d with
    nodes := d.nodes.push ⟨path.joined, path, origin, none, []⟩
    index := d.index.insert path.joined id }
  match parent? with
  | some parent => d.attach parent id
  | none => d

/-- The node already present under a written form. -/
def present? (d : Draft) (written : String) : Option (NodeId × Node) := do
  let id ← d.lookup? written
  let node ← d.nodes[id]?
  return (id, node)

/-- Walks down the leading parts of `name`, making the missing nodes, and gives the last node; on
a conflict the walk ends without one. -/
def descend (d : Draft) (name : QualifiedName) (parent? : Option NodeId) :
    List QualifiedName → Draft × Option NodeId
  | [] => (d, parent?)
  | path :: paths =>
    match d.present? path.joined with
    | some (id, node) =>
      if node.path = path then d.descend name (some id) paths
      else (d.addConflict (.sharedLead path.joined node.origin name), none)
    | none => (d.create parent? name path).descend name (some d.nodes.size) paths

/-- Gives a node its details. Details that differ from the ones it has are a conflict. -/
def describe (d : Draft) (id : NodeId) (c : ClassStatus) : Draft :=
  match d.nodes[id]?.bind Node.details with
  | none => { d with nodes := d.nodes.modify id fun n => { n with details := some c.toClassDetails } }
  | some details =>
    if details = c.toClassDetails then d
    else d.addConflict (.unequalDetails c.name details.status c.status)

def addClass (d : Draft) (c : ClassStatus) : Draft :=
  match d.descend c.name d.root? c.name.leads with
  | (d, some id) => d.describe id c
  | (d, none) => d

/-- The node of a class with exactly these segments. -/
def classNode? (d : Draft) (name : QualifiedName) : Option NodeId := do
  let (id, node) ← d.present? name.joined
  if node.details.isSome ∧ node.path = name then some id else none

/-- Adds an edge from a class to each target that is a class too. -/
def addDependencies (d : Draft) (name : QualifiedName) (targets : List QualifiedName) : Draft :=
  match d.classNode? name with
  | some source =>
    let edges := (targets.filterMap d.classNode?).map fun target => ⟨source, target, .dependsOn⟩
    { d with edges := d.edges ++ edges.toArray }
  | none => d

/-- The tree under a node, which ends at most `depth` levels below; nothing when the number of a
node is out of range. -/
def subtree? (d : Draft) : (depth : Nat) → NodeId → Option Tree
  | 0, _ => none
  | depth + 1, id => do
    let node ← d.nodes[id]?
    let children ← node.children.mapM (d.subtree? depth)
    return .node id node.name node.details children

def checked {α : Type} (d : Draft) (result : α) : Except Inconsistency α :=
  if d.conflicts.isEmpty then .ok result else .error ⟨d.conflicts.toList⟩

/-- A root that holds nothing. -/
def bareRoot : Tree := .node 0 rootName none []

/-- The nested form. No branch is longer than the number of nodes; without a root there is nothing
to show. -/
def toTree (d : Draft) : Except Inconsistency Tree :=
  d.checked ((d.root?.bind (d.subtree? d.nodes.size)).getD bareRoot)

/-- The flat form, which leaves the root out. -/
def toGraph (d : Draft) : Except Inconsistency Graph :=
  let numbered := d.nodes.toList.zipIdx.map fun (n, id) => FlatNode.mk id n.name n.kind
  d.checked
    { nodes := numbered.filter fun n => d.root? ≠ some n.id
      edges := d.edges.toList }

def addClasses (d : Draft) (classes : List ClassStatus) : Draft := classes.foldl addClass d

end Draft

/-- Classes and, for each, the classes it refers to. -/
abbrev DependencyMap := SortedMap QualifiedName (SortedSet QualifiedName)

def Tree.ofClasses (classes : List ClassStatus) : Except Inconsistency Tree :=
  (Draft.withRoot.addClasses classes).toTree

/-- Dependencies are added class by class, in the order of the list. -/
def Graph.ofClasses (classes : List ClassStatus) (dependencies : DependencyMap) :
    Except Inconsistency Graph :=
  let d := Draft.unrooted.addClasses classes
  let d := classes.foldl (fun d c =>
    match dependencies.get? c.name with
    | some targets => d.addDependencies c.name targets.toList
    | none => d) d
  d.toGraph

end DecompTracker.Hierarchy
