import DecompTracker.ClassStatus
import DecompTracker.SortedMap
import DecompTracker.Text.Numeral

/-! Totals over the classes of a report. -/
namespace DecompTracker

structure StatusCounts where
  undecompiled : Nat
  partly : Nat
  decompiled : Nat
  deriving DecidableEq

namespace StatusCounts

def zero : StatusCounts := ⟨0, 0, 0⟩

def record (n : StatusCounts) : StatusKind → StatusCounts
  | .undecompiled => { n with undecompiled := n.undecompiled + 1 }
  | .partly => { n with partly := n.partly + 1 }
  | .decompiled => { n with decompiled := n.decompiled + 1 }

def total (n : StatusCounts) : Nat := n.undecompiled + n.partly + n.decompiled

@[simp] theorem total_record (n : StatusCounts) (status : StatusKind) :
    (n.record status).total = n.total + 1 := by
  cases status <;> simp [record, total] <;> omega

end StatusCounts

structure Summary where
  classes : Nat
  counts : StatusCounts
  methods : Nat
  totalSize : Nat
  functions : Nat
  overrides : Nat
  /-- Counts by outermost scope. -/
  perNamespace : SortedMap String StatusCounts
  deriving DecidableEq

namespace Summary

def empty : Summary := ⟨0, .zero, 0, 0, 0, 0, .empty⟩

/-- Counts one more class. Sizes add up to at most the largest machine word. -/
def addStatus (s : Summary) (c : ClassStatus) : Summary :=
  { s with
    classes := s.classes + 1
    counts := s.counts.record c.status
    methods := s.methods + c.methodCount
    totalSize := Text.saturatingAdd s.totalSize c.totalSize
    perNamespace := s.perNamespace.update c.name.topLevel fun n => (n.getD .zero).record c.status }

def ofStatuses (statuses : List ClassStatus) : Summary := statuses.foldl addStatus empty

end Summary

end DecompTracker
