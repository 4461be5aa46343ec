import DecompTracker.QualifiedName

/-! The decompilation status of a class together with the size of its code. -/
namespace DecompTracker

inductive StatusKind where
  | undecompiled
  | partly
  | decompiled
  deriving DecidableEq, Repr

namespace StatusKind

def word : StatusKind → String
  | .undecompiled => "undecompiled_class"
  | .partly => "partially_decompiled_class"
  | .decompiled => "decompiled_class"

def rank : StatusKind → Nat
  | .undecompiled => 0
  | .partly => 1
  | .decompiled => 2

instance : LE StatusKind := ⟨fun a b => a.rank ≤ b.rank⟩
instance : DecidableLE StatusKind := fun a b => inferInstanceAs (Decidable (a.rank ≤ b.rank))

end StatusKind

/-- What is known about a class apart from its name. -/
structure ClassDetails where
  status : StatusKind
  methodCount : Nat
  totalSize : Nat
  deriving DecidableEq

structure ClassStatus extends ClassDetails where
  name : QualifiedName
  deriving DecidableEq

/-- A class without any evidence. -/
def ClassStatus.undecompiled (name : QualifiedName) : ClassStatus :=
  { name, status := .undecompiled, methodCount := 0, totalSize := 0 }

end DecompTracker
