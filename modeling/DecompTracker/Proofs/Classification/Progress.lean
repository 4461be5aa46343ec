import DecompTracker.Classification
import DecompTracker.Proofs.PairedLists

/-! Statuses under better evidence. When functions stay where and what they are and none of them is
known to be less decompiled than before, every class keeps its methods and its size, and its status
does not fall, with or without an override. -/
namespace DecompTracker

/-- The second is the same row, at least as far decompiled. -/
structure FunctionEntry.Raised (f f' : FunctionEntry) : Prop where
  address : f.address = f'.address
  size : f.size = f'.size
  symbol : f.symbol = f'.symbol
  evidence : f.evidence ≤ f'.evidence

/-- The second is the same function, at least as far decompiled. -/
structure FunctionInfo.Raised (f f' : FunctionInfo) : Prop where
  address : f.address = f'.address
  size : f.size = f'.size
  name : f.name = f'.name
  evidence : f.evidence ≤ f'.evidence

/-- The second has as much code, at least as far decompiled. -/
structure ClassDetails.Raised (x x' : ClassDetails) : Prop where
  status : x.status ≤ x'.status
  methodCount : x.methodCount = x'.methodCount
  totalSize : x.totalSize = x'.totalSize

/-- The second is the same class, at least as far decompiled. -/
structure ClassStatus.Raised (c c' : ClassStatus) : Prop where
  name : c.name = c'.name
  details : c.toClassDetails.Raised c'.toClassDetails

theorem FunctionEntry.Raised.resolve {f f' : FunctionEntry} (h : f.Raised f') :
    f.resolve.Raised f'.resolve :=
  ⟨h.address, h.size, congrArg Symbol.decode h.symbol, h.evidence⟩

/-! Evidence -/

theorem Evidence.le_unknown_iff {e : Evidence} : e ≤ .unknown ↔ e = .unknown := by
  cases e <;> decide

theorem Evidence.decompiled_le_iff {e : Evidence} : .decompiled ≤ e ↔ e = .decompiled := by
  cases e <;> decide

section evidence

variable {evidence evidence' : List Evidence}

theorem all_unknown_of_le (h : List.Forall₂ (· ≤ ·) evidence evidence')
    (hall : evidence'.all (· == .unknown)) : evidence.all (· == .unknown) := by
  induction h with
  | nil => rfl
  | cons hle _ ih =>
    simp only [List.all_cons, Bool.and_eq_true, beq_iff_eq] at hall ⊢
    exact ⟨Evidence.le_unknown_iff.mp (hall.1 ▸ hle), ih hall.2⟩

theorem all_decompiled_of_le (h : List.Forall₂ (· ≤ ·) evidence evidence')
    (hall : evidence.all (· == .decompiled)) : evidence'.all (· == .decompiled) := by
  induction h with
  | nil => rfl
  | cons hle _ ih =>
    simp only [List.all_cons, Bool.and_eq_true, beq_iff_eq] at hall ⊢
    exact ⟨Evidence.decompiled_le_iff.mp (hall.1 ▸ hle), ih hall.2⟩

/-- Which evidence occurs at all may change either way, but only towards a higher status. -/
theorem StatusKind.ofEvidence_le (h : List.Forall₂ (· ≤ ·) evidence evidence') :
    ofEvidence evidence ≤ ofEvidence evidence' := by
  unfold ofEvidence
  by_cases hu : evidence.all (· == .unknown)
  · rw [if_pos hu]
    exact Nat.zero_le _
  · have hu' : ¬ evidence'.all (· == .unknown) = true := fun hall => hu (all_unknown_of_le h hall)
    rw [if_neg hu, if_neg hu']
    by_cases hd' : evidence'.all (· == .decompiled)
    · rw [if_pos hd']
      split <;> decide
    · have hd : ¬ evidence.all (· == .decompiled) = true := fun hall =>
        hd' (all_decompiled_of_le h hall)
      rw [if_neg hd, if_neg hd']
      exact Nat.le_refl _

end evidence

/-! Classes -/

section classes

variable {functions functions' : List FunctionInfo}

/-- Ownership goes by names, so the same rows belong to a class. -/
theorem ownedBy_raised (h : List.Forall₂ FunctionInfo.Raised functions functions')
    (short : String) :
    List.Forall₂ FunctionInfo.Raised (ownedBy short functions) (ownedBy short functions') :=
  List.rel_filter (fun f f' hf => by simp only [hf.name]) h

theorem totalSize_raised (h : List.Forall₂ FunctionInfo.Raised functions functions') :
    totalSize functions = totalSize functions' := by
  have hsizes : functions.map FunctionInfo.size = functions'.map FunctionInfo.size :=
    map_eq_of_forall₂ (fun _ _ hf => hf.size) h
  have hfold (fs : List FunctionInfo) :
      totalSize fs = (fs.map FunctionInfo.size).foldl Text.saturatingAdd 0 := by
    rw [List.foldl_map]
    rfl
  rw [hfold, hfold, hsizes]

theorem ClassStatus.raised_ofOwned (h : List.Forall₂ FunctionInfo.Raised functions functions')
    (name : QualifiedName) (overrides : OverrideTable) :
    (ofOwned name functions overrides).Raised (ofOwned name functions' overrides) := by
  refine ⟨rfl, ?_, h.length_eq, totalSize_raised h⟩
  cases hoverride : overrides.get? name with
  | some o =>
    simp only [ofOwned, hoverride]
    exact Nat.le_refl _
  | none =>
    simp only [ofOwned, hoverride]
    refine StatusKind.ofEvidence_le ?_
    rw [List.forall₂_map_left_iff, List.forall₂_map_right_iff]
    exact h.imp fun _ _ hf => hf.evidence

theorem classify_raised (h : List.Forall₂ FunctionInfo.Raised functions functions')
    (name : QualifiedName) (overrides : OverrideTable) :
    (classify name functions overrides).Raised (classify name functions' overrides) :=
  ClassStatus.raised_ofOwned (ownedBy_raised h name.last) name overrides

end classes

end DecompTracker
