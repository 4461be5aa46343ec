import DecompTracker.Symbol
import DecompTracker.Text.Blank

/-! Functions of the binary and how far each is known to be decompiled. A function table lists
symbols; resolving an entry replaces the symbol by the qualified name in it. -/
namespace DecompTracker

/-- What is known about one function, from no evidence to a confirmed match. -/
inductive Evidence where
  | unknown
  | other
  | decompiled
  deriving DecidableEq, Repr

namespace Evidence

/-- Function tables use the letter `O` for a match and `U` for an untouched function. -/
def ofCode (code : String) : Evidence :=
  match Text.trim code with
  | "O" => .decompiled
  | "U" => .unknown
  | _ => .other

def word : Evidence → String
  | .unknown => "unknown"
  | .other => "other"
  | .decompiled => "decompiled"

def rank : Evidence → Nat
  | .unknown => 0
  | .other => 1
  | .decompiled => 2

instance : LE Evidence := ⟨fun a b => a.rank ≤ b.rank⟩
instance : DecidableLE Evidence := fun a b => inferInstanceAs (Decidable (a.rank ≤ b.rank))

end Evidence

/-- A function whose qualified name is known. -/
structure FunctionInfo where
  address : Nat
  evidence : Evidence
  size : Nat
  name : QualifiedName
  deriving DecidableEq

/-- A function as its table lists it. -/
structure FunctionEntry where
  address : Nat
  evidence : Evidence
  size : Nat
  symbol : String
  deriving DecidableEq

def FunctionEntry.resolve (f : FunctionEntry) : FunctionInfo :=
  { address := f.address, evidence := f.evidence, size := f.size, name := Symbol.decode f.symbol }

end DecompTracker
