import DecompTracker.Path
import DecompTracker.Text.Split

/-! Command lines. A verb is followed by its options, each given at most once, by its flags and by
its operands, in any order; after `--` only operands follow. An option takes its value after an
equals sign or from the next argument, which may not look like an option then. -/
namespace DecompTracker.CommandLine

inductive Verb where
  | initProject
  | projectInfo
  | demangle
  | classifyClass
  | buildReport
  deriving DecidableEq

def Verb.ofWord? : String → Option Verb
  | "init-project" => some .initProject
  | "project-info" => some .projectInfo
  | "demangle" => some .demangle
  | "classify-class" => some .classifyClass
  | "build-report" => some .buildReport
  | _ => none

inductive Command where
  | initProject (root : Path) (name? : Option String)
  | projectInfo (root : Path) (asJson : Bool)
  | demangle (symbols : List String) (asJson : Bool)
  | classifyClass (root : Path) (name : String) (asJson : Bool)
  | buildReport (root : Path) (format : String) (isPrinted : Bool)
  deriving DecidableEq

/-- What a command line asks for. -/
inductive Request where
  | run (command : Command)
  | version
  | help
  deriving DecidableEq

/-- What a single argument looks like. -/
inductive Argument where
  | operandsFollow
  | long (name : String) (value? : Option String)
  | short (letter : Char)
  | operand (s : String)
  deriving DecidableEq

namespace Argument

/-- A value starts after the first equals sign. -/
def ofLong (cs : List Char) : Argument :=
  match cs.dropWhile (· ≠ '=') with
  | [] => long (String.ofList cs) none
  | _ :: value => long (String.ofList (cs.takeWhile (· ≠ '='))) (some (String.ofList value))

/-- A single dash is an operand. -/
def ofText (s : String) : Argument :=
  match s.toList with
  | ['-', '-'] => operandsFollow
  | '-' :: '-' :: cs => ofLong cs
  | '-' :: letter :: _ => short letter
  | _ => operand s

end Argument

/-- What may follow a verb. -/
structure Grammar where
  options : List String
  flags : List String
  takesOperands : Bool

/-- What has been given so far. -/
structure Given where
  options : List (String × String)
  flags : List String
  operands : List String
  deriving DecidableEq

inductive Scan where
  | given (g : Given)
  | help
  deriving DecidableEq

namespace Given

def empty : Given := ⟨[], [], []⟩

def addOption? (g : Given) (name value : String) : Option Given :=
  if (g.options.lookup name).isSome then none
  else some { g with options := (name, value) :: g.options }

def addFlag? (g : Given) (name : String) : Option Given :=
  if g.flags.contains name then none else some { g with flags := name :: g.flags }

def addOperands? (g : Given) (grammar : Grammar) (operands : List String) : Option Given :=
  if operands.isEmpty || grammar.takesOperands then
    some { g with operands := g.operands ++ operands }
  else none

def root (g : Given) : Path := ⟨(g.options.lookup "root").getD "."⟩

def has (g : Given) (flag : String) : Bool := g.flags.contains flag

end Given

/-- Reads what follows a verb, or nothing if it does not fit; `awaiting?` is the option that the next
argument is the value of. -/
def scan? (grammar : Grammar) : (awaiting? : Option String) → Given → List String → Option Scan
  | none, g, [] => some (.given g)
  | some _, _, [] => none
  | some name, g, arg :: rest =>
    match Argument.ofText arg with
    | .operand value => (g.addOption? name value).bind fun g => scan? grammar none g rest
    | _ => none
  | none, g, arg :: rest =>
    match Argument.ofText arg with
    | .operandsFollow => (g.addOperands? grammar rest).map .given
    | .operand s => (g.addOperands? grammar [s]).bind fun g => scan? grammar none g rest
    | .short letter => if letter = 'h' then some .help else none
    | .long name none =>
      if grammar.flags.contains name then
        (g.addFlag? name).bind fun g => scan? grammar none g rest
      else if grammar.options.contains name then scan? grammar (some name) g rest
      else if name = "help" then some .help
      else none
    | .long name (some value) =>
      if grammar.options.contains name then
        (g.addOption? name value).bind fun g => scan? grammar none g rest
      else none

namespace Verb

def grammar : Verb → Grammar
  | initProject => { options := ["root", "name"], flags := [], takesOperands := false }
  | projectInfo => { options := ["root"], flags := ["json"], takesOperands := false }
  | demangle => { options := [], flags := ["json"], takesOperands := true }
  | classifyClass => { options := ["root", "name"], flags := ["json"], takesOperands := false }
  | buildReport => { options := ["root", "format"], flags := ["stdout"], takesOperands := false }

/-- The command, unless something it needs was not given. -/
def command? (g : Given) : Verb → Option Command
  | initProject => some (.initProject g.root (g.options.lookup "name"))
  | projectInfo => some (.projectInfo g.root (g.has "json"))
  | demangle => if g.operands.isEmpty then none else some (.demangle g.operands (g.has "json"))
  | classifyClass => do return .classifyClass g.root (← g.options.lookup "name") (g.has "json")
  | buildReport =>
    some (.buildReport g.root ((g.options.lookup "format").getD "both") (g.has "stdout"))

def request? (verb : Verb) (args : List String) : Option Request :=
  match scan? verb.grammar none .empty args with
  | some (.given g) => (verb.command? g).map .run
  | some .help => some .help
  | none => none

end Verb

/-- Help can be asked for a verb. -/
def helpRequest? : List String → Option Request
  | [] => some .help
  | [topic] => if topic = "help" || (Verb.ofWord? topic).isSome then some .help else none
  | _ => none

/-- What the arguments ask for; nothing if they are misused. -/
def Request.ofArguments? : List String → Option Request
  | [] => none
  | arg :: rest =>
    match Argument.ofText arg with
    | .long "help" none => some .help
    | .long "version" none => some .version
    | .short 'h' => some .help
    | .short 'V' => some .version
    | .operand "help" => helpRequest? rest
    | .operand word => do (← Verb.ofWord? word).request? rest
    | _ => none

end DecompTracker.CommandLine
