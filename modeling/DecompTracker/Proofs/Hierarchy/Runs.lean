import DecompTracker.Proofs.Hierarchy.Consistency

/-! Runs of a draft: any row of calls that add classes and dependencies, conflicting ones included, in
any order. A run keeps its form and stays well-formed, and its outline is that of the classes added
so far, so dependencies show in the edges only. -/
namespace DecompTracker.Hierarchy

inductive Call where
  | addClass (c : ClassStatus)
  | addDependencies (name : QualifiedName) (targets : List QualifiedName)

def Call.class? : Call → Option ClassStatus
  | addClass c => some c
  | addDependencies _ _ => none

/-- The classes that calls add, in their order. -/
def addedClasses (calls : List Call) : List ClassStatus := calls.filterMap Call.class?

theorem addedClasses_concat (calls : List Call) (call : Call) :
    addedClasses (calls ++ [call]) = addedClasses calls ++ call.class?.toList := by
  rw [addedClasses, List.filterMap_append]
  cases call <;> rfl

theorem Outline.ofClasses_append (classes more : List ClassStatus) :
    ofClasses (classes ++ more) = more.foldl addClass (ofClasses classes) := by
  simp [ofClasses]

namespace Draft

/-- A draft that nothing was added to. -/
def start (rooted : Bool) : Draft := if rooted then withRoot else unrooted

def apply (d : Draft) : Call → Draft
  | .addClass c => d.addClass c
  | .addDependencies name targets => d.addDependencies name targets

def run (d : Draft) (calls : List Call) : Draft := calls.foldl apply d

theorem run_concat (d : Draft) (calls : List Call) (call : Call) :
    d.run (calls ++ [call]) = (d.run calls).apply call := by
  simp [run]

theorem rooted_start (rooted : Bool) : (start rooted).rooted = rooted := by
  cases rooted <;> rfl

theorem wellFormed_start (rooted : Bool) : (start rooted).WellFormed := by
  cases rooted
  · exact wellFormed_unrooted
  · exact wellFormed_withRoot

theorem outline_start (rooted : Bool) : (start rooted).outline = .empty := by
  cases rooted <;> rfl

theorem grown_apply {d : Draft} (hd : d.WellFormed) (call : Call) :
    Grown d (d.apply call) (call.class?.toList.foldl Outline.addClass d.outline) := by
  cases call with
  | addClass c => exact grown_addClass hd c
  | addDependencies name targets => exact grown_addDependencies hd name targets

theorem grown_run (rooted : Bool) (calls : List Call) :
    Grown (start rooted) ((start rooted).run calls) (.ofClasses (addedClasses calls)) := by
  induction calls using List.reverseRecOn with
  | nil => exact ⟨wellFormed_start rooted, rfl, outline_start rooted⟩
  | append_singleton calls call ih =>
    have hg := grown_apply ih.wellFormed call
    rw [ih.outline, ← Outline.ofClasses_append, ← addedClasses_concat] at hg
    rw [run_concat]
    exact ih.trans hg

end Draft

end DecompTracker.Hierarchy
