import DecompTracker.Proofs.Classification.Partition
import DecompTracker.Proofs.Text.Numeral

/-! What the status of a class is made from: the functions whose second-to-last segment is the last
one of the class, and the override of exactly this class. An override decides the status alone; without
one the evidence does. Nothing else that is listed changes anything. -/
namespace DecompTracker

/-- The segment before the last one is the last one of the class. -/
def FunctionInfo.IsMethodOf (f : FunctionInfo) (name : QualifiedName) : Prop :=
  2 ≤ f.name.length ∧ f.name.segments[f.name.length - 2]? = some name.last

instance (f : FunctionInfo) (name : QualifiedName) : Decidable (f.IsMethodOf name) :=
  inferInstanceAs (Decidable (_ ∧ _))

variable {name name' : QualifiedName} {functions functions' : List FunctionInfo}
  {overrides overrides' : OverrideTable}

theorem FunctionInfo.isMethodOf_iff {f : FunctionInfo} :
    f.IsMethodOf name ↔ f.name.owner? = some name.last :=
  QualifiedName.owner?_eq_some_iff.symm

theorem ownedBy_last (name : QualifiedName) (functions : List FunctionInfo) :
    ownedBy name.last functions = functions.filter (·.IsMethodOf name) := by
  simp only [ownedBy, FunctionInfo.isMethodOf_iff]

theorem totalSize_eq (functions : List FunctionInfo) :
    totalSize functions = min (functions.map FunctionInfo.size).sum Text.maxWord :=
  Text.foldl_saturatingAdd FunctionInfo.size functions

/-! Evidence -/

section evidence

variable {evidence : List Evidence}

theorem StatusKind.ofEvidence_eq_undecompiled_iff :
    ofEvidence evidence = .undecompiled ↔ ∀ e ∈ evidence, e = .unknown := by
  unfold ofEvidence
  split
  · rename_i hall
    simpa using hall
  · rename_i hall
    split <;> simpa using hall

/-- Without any evidence nothing is complete. -/
theorem StatusKind.ofEvidence_eq_decompiled_iff :
    ofEvidence evidence = .decompiled ↔ evidence ≠ [] ∧ ∀ e ∈ evidence, e = .decompiled := by
  unfold ofEvidence
  split
  · rename_i hall
    simp only [reduceCtorEq, false_iff, not_and]
    intro hne hdecompiled
    obtain ⟨e, he⟩ := List.exists_mem_of_ne_nil evidence hne
    have hunknown : e = .unknown := by simpa using List.all_eq_true.mp hall e he
    simp [hdecompiled e he] at hunknown
  · rename_i hall
    have hne : evidence ≠ [] := by
      rintro rfl
      exact hall rfl
    split
    · rename_i hdecompiled
      simpa [hne] using hdecompiled
    · rename_i hdecompiled
      simpa [hne] using hdecompiled

end evidence

/-! Overrides -/

namespace OverrideTable

/-- The table says something about exactly this class. -/
def Gives (t : OverrideTable) (name : QualifiedName) (hint : Hint) : Prop :=
  (name, hint) ∈ t.hints.entries

theorem get?_eq_some_iff {t : OverrideTable} {o : StatusOverride} :
    t.get? name = some o ↔ o.name = name ∧ t.Gives name o.hint := by
  rw [get?, Option.map_eq_some_iff, Gives]
  constructor
  · rintro ⟨hint, hget, rfl⟩
    exact ⟨rfl, (SortedMap.get?_eq_some_iff _ _ _).mp hget⟩
  · rintro ⟨rfl, hgives⟩
    exact ⟨o.hint, (SortedMap.get?_eq_some_iff _ _ _).mpr hgives, rfl⟩

theorem get?_eq_none_iff {t : OverrideTable} :
    t.get? name = none ↔ ∀ hint, ¬ t.Gives name hint := by
  rw [Option.eq_none_iff_forall_ne_some]
  constructor
  · intro h hint hgives
    exact h ⟨name, hint⟩ (get?_eq_some_iff.mpr ⟨rfl, hgives⟩)
  · rintro h o ho
    exact h o.hint (get?_eq_some_iff.mp ho).2

theorem get?_congr {t t' : OverrideTable} (h : ∀ hint, t.Gives name hint ↔ t'.Gives name hint) :
    t.get? name = t'.get? name := by
  refine Option.ext fun o => ?_
  rw [get?_eq_some_iff, get?_eq_some_iff, h]

end OverrideTable

/-! Statuses -/

/-- What is said about a class, given all functions and all overrides. -/
structure ClassStatus.DerivedFrom (c : ClassStatus) (name : QualifiedName)
    (functions : List FunctionInfo) (overrides : OverrideTable) : Prop where
  name_eq : c.name = name
  methodCount : c.methodCount = functions.countP (·.IsMethodOf name)
  totalSize : c.totalSize =
    min (2 ^ 64 - 1) ((functions.filter (·.IsMethodOf name)).map (·.size)).sum
  pending : overrides.Gives name .pending → c.status = .partly
  final : overrides.Gives name .final → c.status = .decompiled
  undecompiled : (∀ hint, ¬ overrides.Gives name hint) →
    (c.status = .undecompiled ↔ ∀ f ∈ functions, f.IsMethodOf name → f.evidence = .unknown)
  decompiled : (∀ hint, ¬ overrides.Gives name hint) →
    (c.status = .decompiled ↔ (∃ f ∈ functions, f.IsMethodOf name) ∧
      ∀ f ∈ functions, f.IsMethodOf name → f.evidence = .decompiled)

theorem status_classify_of_gives {hint : Hint} (h : overrides.Gives name hint) :
    (classify name functions overrides).status = hint.status := by
  have hget : overrides.get? name = some ⟨name, hint⟩ :=
    OverrideTable.get?_eq_some_iff.mpr ⟨rfl, h⟩
  simp [classify, ClassStatus.ofOwned, hget]

theorem status_classify_of_none (h : ∀ hint, ¬ overrides.Gives name hint) :
    (classify name functions overrides).status =
      .ofEvidence ((functions.filter (·.IsMethodOf name)).map (·.evidence)) := by
  have hget := OverrideTable.get?_eq_none_iff.mpr h
  simp only [classify, ClassStatus.ofOwned, hget, ownedBy_last]

theorem derivedFrom_classify (name : QualifiedName) (functions : List FunctionInfo)
    (overrides : OverrideTable) :
    (classify name functions overrides).DerivedFrom name functions overrides where
  name_eq := rfl
  methodCount := by
    simp only [classify, ClassStatus.ofOwned, ownedBy_last, List.countP_eq_length_filter]
  totalSize := by
    simp only [classify, ClassStatus.ofOwned, ownedBy_last, totalSize_eq]
    exact Nat.min_comm _ _
  pending h := status_classify_of_gives h
  final h := status_classify_of_gives h
  undecompiled h := by
    rw [status_classify_of_none h, StatusKind.ofEvidence_eq_undecompiled_iff]
    simp only [List.forall_mem_map, List.mem_filter, decide_eq_true_eq, and_imp]
  decompiled h := by
    rw [status_classify_of_none h, StatusKind.ofEvidence_eq_decompiled_iff]
    simp only [List.forall_mem_map, List.mem_filter, decide_eq_true_eq, and_imp, ne_eq,
      List.map_eq_nil_iff, List.filter_eq_nil_iff, not_forall, not_not, exists_prop]

theorem classify_congr (hfunctions : functions'.filter (·.IsMethodOf name) =
      functions.filter (·.IsMethodOf name))
    (hoverrides : ∀ hint, overrides'.Gives name hint ↔ overrides.Gives name hint) :
    classify name functions' overrides' = classify name functions overrides := by
  simp only [classify, ClassStatus.ofOwned, ownedBy_last, hfunctions,
    OverrideTable.get?_congr hoverrides]

theorem classify_of_last_eq (hlast : name'.last = name.last)
    (hname : ∀ hint, ¬ overrides.Gives name hint) (hname' : ∀ hint, ¬ overrides.Gives name' hint) :
    classify name' functions overrides =
      { classify name functions overrides with name := name' } := by
  simp only [classify, ClassStatus.ofOwned, hlast, OverrideTable.get?_eq_none_iff.mpr hname,
    OverrideTable.get?_eq_none_iff.mpr hname']

/-- A class gets its status from its own functions and its own override, and from nothing else that
is listed; its scopes count only for the override. -/
theorem classify_derived (name : QualifiedName) (functions : List FunctionInfo)
    (overrides : OverrideTable) :
    (classify name functions overrides).DerivedFrom name functions overrides ∧
    (∀ functions' overrides',
      functions'.filter (·.IsMethodOf name) = functions.filter (·.IsMethodOf name) →
      (∀ hint, overrides'.Gives name hint ↔ overrides.Gives name hint) →
      classify name functions' overrides' = classify name functions overrides) ∧
    ∀ name', name'.last = name.last → (∀ hint, ¬ overrides.Gives name hint) →
      (∀ hint, ¬ overrides.Gives name' hint) →
      classify name' functions overrides =
        { classify name functions overrides with name := name' } :=
  ⟨derivedFrom_classify name functions overrides, fun _ _ => classify_congr,
    fun _ => classify_of_last_eq⟩

def actFoo : QualifiedName := ⟨["ksys", "act", "Foo"], by simp⟩

/-- A class with the short name of another one. -/
def uiFoo : QualifiedName := ⟨["uking", "ui", "Foo"], by simp⟩

/-- Two methods of every class called `Foo`, one of another class, and a free function. -/
def fooFunctions : List FunctionInfo := [
  ⟨0x10, .decompiled, Text.maxWord, ⟨["ksys", "act", "Foo", "init"], by simp⟩⟩,
  ⟨0x18, .unknown, 4, ⟨["Foo", "Bar", "calc"], by simp⟩⟩,
  ⟨0x20, .unknown, 8, ⟨["Foo", "calc"], by simp⟩⟩,
  ⟨0x28, .other, 16, ⟨["Foo"], by simp⟩⟩]

def otherOverrides : OverrideTable := .insert .empty ⟨["Foo"], by simp⟩ .final

theorem classify_derived_fooFunctions :
    (classify actFoo fooFunctions otherOverrides).DerivedFrom actFoo fooFunctions otherOverrides ∧
      (classify actFoo fooFunctions otherOverrides).toClassDetails = ⟨.partly, 2, 2 ^ 64 - 1⟩ ∧
      ([fooFunctions[0], fooFunctions[2]].filter (·.IsMethodOf actFoo) =
        fooFunctions.filter (·.IsMethodOf actFoo)) ∧
      classify actFoo [fooFunctions[0], fooFunctions[2]] .empty =
        classify actFoo fooFunctions otherOverrides ∧
      classify uiFoo fooFunctions otherOverrides =
        { classify actFoo fooFunctions otherOverrides with name := uiFoo } := by
  have hfunctions : [fooFunctions[0], fooFunctions[2]].filter (·.IsMethodOf actFoo) =
      fooFunctions.filter (·.IsMethodOf actFoo) := by decide +kernel
  have hact : ∀ hint, ¬ otherOverrides.Gives actFoo hint :=
    OverrideTable.get?_eq_none_iff.mp (by decide +kernel)
  have hui : ∀ hint, ¬ otherOverrides.Gives uiFoo hint :=
    OverrideTable.get?_eq_none_iff.mp (by decide +kernel)
  have hempty : ∀ hint, ¬ OverrideTable.empty.Gives actFoo hint :=
    OverrideTable.get?_eq_none_iff.mp rfl
  obtain ⟨hderived, hsame, hshort⟩ := classify_derived actFoo fooFunctions otherOverrides
  refine ⟨hderived, by decide +kernel, hfunctions, ?_, hshort uiFoo rfl hact hui⟩
  exact hsame _ _ hfunctions fun hint => iff_of_false (hempty hint) (hact hint)

end DecompTracker
