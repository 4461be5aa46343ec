import DecompTracker.Yaml.Token

/-! YAML documents as nodes. A value that is left out is the empty plain scalar. An alias stands for
the node its name was given to and is followed only when it is read, so a node may contain aliases
of itself. -/
namespace DecompTracker.Yaml

inductive Node where
  | scalar (text : String) (isPlain : Bool)
  | sequence (items : List Node)
  | mapping (entries : List (Node × Node))
  /-- The number its name stood for. -/
  | alias (number : Nat)

/-- The anchors met so far. A name stands for how many names were in use when it was last given, so
two names may come to share a number; the number stands for the node that got it last. -/
structure Anchors where
  /-- The number of each name. -/
  numbers : List (String × Nat)
  /-- How many nodes got a number. -/
  count : Nat
  /-- Which of these nodes got each number last. -/
  latest : List (Nat × Nat)
  /-- The nodes that are complete, by when they got their number. -/
  nodes : List (Nat × Node)

namespace Anchors

def empty : Anchors := ⟨[], 0, [], []⟩

/-- Gives a name to the node that comes next. -/
def add (anchors : Anchors) (name : String) : Anchors :=
  let number := anchors.numbers.length
  { anchors with
    numbers := (name, number) :: anchors.numbers.filter (·.1 ≠ name)
    count := anchors.count + 1
    latest := (number, anchors.count) :: anchors.latest.filter (·.1 ≠ number) }

def number? (anchors : Anchors) (name : String) : Option Nat := anchors.numbers.lookup name

def node? (anchors : Anchors) (number : Nat) : Option Node :=
  (anchors.latest.lookup number).bind fun serial => anchors.nodes.lookup serial

end Anchors

/-- What is left to read, the anchors so far and the handles that tags may have. -/
structure Reading where
  tokens : List Token
  anchors : Anchors
  handles : List String

/-- What stands before a node. -/
structure Properties where
  anchor? : Option String
  tag? : Option String

namespace Properties

/-- At most one anchor and at most one tag, in either order. -/
def read : List Token → Properties × List Token
  | .anchor name :: .tag handle :: ts => (⟨some name, some handle⟩, ts)
  | .tag handle :: .anchor name :: ts => (⟨some name, some handle⟩, ts)
  | .anchor name :: ts => (⟨some name, none⟩, ts)
  | .tag handle :: ts => (⟨none, some handle⟩, ts)
  | ts => (⟨none, none⟩, ts)

def isEmpty (p : Properties) : Bool := p.anchor?.isNone && p.tag?.isNone

end Properties

namespace Node

def blank : Node := .scalar "" true

def startsWith (tokens : List Token) (ts : List Token) : Bool :=
  tokens.head?.any ts.contains

abbrev Result := Option (Node × Reading)

/-- Keeps a node that is complete under its anchor. -/
def keep (anchor? : Option String) (serial : Nat) : Node × Reading → Node × Reading
  | (n, r) =>
    if anchor?.isSome then
      (n, { r with anchors := { r.anchors with nodes := (serial, n) :: r.anchors.nodes } })
    else (n, r)

mutual

/-- The node at the front of the tokens. -/
def node : (fuel : Nat) → (inBlock mayLackIndent : Bool) → Reading → Result
  | 0, _, _, _ => none
  | fuel + 1, inBlock, mayLackIndent, r =>
    match r.tokens with
    | .alias name :: ts => (r.anchors.number? name).map fun n => (.alias n, { r with tokens := ts })
    | tokens =>
      let (properties, ts) := Properties.read tokens
      if !properties.tag?.all fun handle => handle = "" || r.handles.contains handle then none
      else
        let serial := r.anchors.count
        let anchors := match properties.anchor? with
          | some name => r.anchors.add name
          | none => r.anchors
        (content fuel inBlock mayLackIndent properties.isEmpty { r with tokens := ts, anchors }).map
          (keep properties.anchor? serial)

/-- A node without what stands before it. Block collections stand in blocks only; a sequence as a
mapping's value needs no indentation; the blank node has to have something before it. -/
def content : (fuel : Nat) → (inBlock mayLackIndent isBare : Bool) → Reading → Result
  | 0, _, _, _, _ => none
  | fuel + 1, inBlock, mayLackIndent, isBare, r =>
    let orBlank : Result := if isBare then none else some (blank, r)
    match r.tokens with
    | .scalar text isPlain :: ts => some (.scalar text isPlain, { r with tokens := ts })
    | .flowMapping :: ts => flowEntries fuel true [] { r with tokens := ts }
    | .flowSequence :: ts => flowItems fuel true [] { r with tokens := ts }
    | .blockMapping :: ts => if inBlock then blockEntries fuel [] { r with tokens := ts } else orBlank
    | .blockSequence :: ts => if inBlock then blockItems fuel [] { r with tokens := ts } else orBlank
    | .entry :: _ => if mayLackIndent then bareItems fuel [] r else orBlank
    | _ => orBlank

/-- A node, or the blank one when one of the given tokens comes instead. -/
def nodeBefore : (fuel : Nat) → (inBlock mayLackIndent : Bool) → (ends : List Token) → Reading →
    Result
  | 0, _, _, _, _ => none
  | fuel + 1, inBlock, mayLackIndent, ends, r =>
    if startsWith r.tokens ends then some (blank, r) else node fuel inBlock mayLackIndent r

/-- The value after a key, blank without a value token. -/
def valueBefore : (fuel : Nat) → (inBlock mayLackIndent : Bool) → (ends : List Token) → Reading →
    Result
  | 0, _, _, _, _ => none
  | fuel + 1, inBlock, mayLackIndent, ends, r =>
    match r.tokens with
    | .value :: ts => nodeBefore fuel inBlock mayLackIndent ends { r with tokens := ts }
    | _ => some (blank, r)

def blockEntries : (fuel : Nat) → List (Node × Node) → Reading → Result
  | 0, _, _ => none
  | fuel + 1, found, r =>
    match r.tokens with
    | .key :: ts => do
      let ends := [.key, .value, .blockEnd]
      let (k, r) ← nodeBefore fuel true true ends { r with tokens := ts }
      let (v, r) ← valueBefore fuel true true ends r
      blockEntries fuel ((k, v) :: found) r
    | .blockEnd :: ts => some (.mapping found.reverse, { r with tokens := ts })
    | _ => none

def blockItems : (fuel : Nat) → List Node → Reading → Result
  | 0, _, _ => none
  | fuel + 1, found, r =>
    match r.tokens with
    | .entry :: ts => do
      let (item, r) ← nodeBefore fuel true false [.entry, .blockEnd] { r with tokens := ts }
      blockItems fuel (item :: found) r
    | .blockEnd :: ts => some (.sequence found.reverse, { r with tokens := ts })
    | _ => none

/-- A sequence without indentation of its own ends at the first token that is no entry. -/
def bareItems : (fuel : Nat) → List Node → Reading → Result
  | 0, _, _ => none
  | fuel + 1, found, r =>
    match r.tokens with
    | .entry :: ts => do
      let ends := [.entry, .key, .value, .blockEnd]
      let (item, r) ← nodeBefore fuel true false ends { r with tokens := ts }
      bareItems fuel (item :: found) r
    | _ => some (.sequence found.reverse, r)

def flowEntries : (fuel : Nat) → (isFirst : Bool) → List (Node × Node) → Reading → Result
  | 0, _, _, _ => none
  | fuel + 1, isFirst, found, r =>
    match isFirst, r.tokens with
    | _, .flowMappingEnd :: ts => some (.mapping found.reverse, { r with tokens := ts })
    | false, .comma :: .flowMappingEnd :: ts => some (.mapping found.reverse, { r with tokens := ts })
    | true, ts | false, .comma :: ts => do
      let ends := [.comma, .flowMappingEnd]
      match ts with
      | .key :: ts =>
        let (k, r) ← nodeBefore fuel false false (.value :: ends) { r with tokens := ts }
        let (v, r) ← valueBefore fuel false false ends r
        flowEntries fuel false ((k, v) :: found) r
      | ts =>
        let (k, r) ← node fuel false false { r with tokens := ts }
        flowEntries fuel false ((k, blank) :: found) r
    | _, _ => none

/-- A key among the items is a mapping of one entry. Where it is left out, the token in its place is
passed over. -/
def flowItems : (fuel : Nat) → (isFirst : Bool) → List Node → Reading → Result
  | 0, _, _, _ => none
  | fuel + 1, isFirst, found, r =>
    match isFirst, r.tokens with
    | _, .flowSequenceEnd :: ts => some (.sequence found.reverse, { r with tokens := ts })
    | false, .comma :: .flowSequenceEnd :: ts =>
      some (.sequence found.reverse, { r with tokens := ts })
    | true, ts | false, .comma :: ts => do
      let ends := [.comma, .flowSequenceEnd]
      match ts with
      | .key :: ts =>
        let (k, r) ←
          if startsWith ts (.value :: ends) then some (blank, { r with tokens := ts.tail })
          else node fuel false false { r with tokens := ts }
        let (v, r) ← valueBefore fuel false false ends r
        flowItems fuel false (.mapping [(k, v)] :: found) r
      | ts =>
        let (item, r) ← node fuel false false { r with tokens := ts }
        flowItems fuel false (item :: found) r
    | _, _ => none

end

mutual

/-- How many parts a node is written in: collections have a start and an end. -/
def parts : Node → Nat
  | .scalar _ _ => 1
  | .alias _ => 1
  | .sequence items => partsOfItems items + 2
  | .mapping entries => partsOfEntries entries + 2

def partsOfItems : List Node → Nat
  | [] => 0
  | n :: ns => parts n + partsOfItems ns

def partsOfEntries : List (Node × Node) → Nat
  | [] => 0
  | (k, v) :: es => parts k + parts v + partsOfEntries es

end

end Node

structure Document where
  root : Node
  anchors : Anchors

namespace Document

/-- The directives at the front of the tokens: at most one version, which has to be known, and no
handle twice. -/
def directives? : (hasVersion : Bool) → (handles : List String) → List Token →
    Option (List String × List Token)
  | hasVersion, handles, .directive (.version major minor) :: ts =>
    if !hasVersion && major = 1 && (minor = 1 || minor = 2) then directives? true handles ts
    else none
  | hasVersion, handles, .directive (.handle name) :: ts =>
    if handles.contains name then none else directives? hasVersion (name :: handles) ts
  | _, handles, ts => some (handles, ts)

def standardHandles : List String := ["!", "!!"]

/-- The single document of a text, blank when the text holds none. -/
def ofTokens? (tokens : List Token) : Option Document := do
  let (handles, ts) ← directives? false [] tokens
  let isStarted := Node.startsWith ts [.documentStart]
  if ts.length < tokens.length && !isStarted then none
  else
    let ts := if isStarted then ts.tail else ts
    let r : Reading := ⟨ts, .empty, handles ++ standardHandles⟩
    let isBlank := ts.isEmpty || (isStarted && Node.startsWith ts [.documentStart, .documentEnd])
    let (root, r) ←
      if isBlank then some (Node.blank, r) else Node.node (5 * ts.length + 5) true false r
    if r.tokens.all (· == .documentEnd) then some ⟨root, r.anchors⟩ else none

def parse? (text : String) : Option Document := (tokens? text).bind ofTokens?

end Document

end DecompTracker.Yaml
