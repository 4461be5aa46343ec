import DecompTracker.Classification
import DecompTracker.Proofs.SortedMap
import Mathlib.Algebra.BigOperators.Group.List.Lemmas
import Mathlib.Algebra.GroupWithZero.Nat
import Mathlib.Data.List.Dedup

/-! The index of functions by owner. It divides the functions among the short names of their owners,
in the order of the list and with nothing lost, so a class looked up in it gets the functions that a
scan of the whole list finds. -/
namespace DecompTracker

theorem QualifiedName.owner?_eq_some_iff {name : QualifiedName} {short : String} :
    name.owner? = some short ↔
      2 ≤ name.length ∧ name.segments[name.length - 2]? = some short := by
  have hlast : name.segments.dropLast.getLast? = name.segments.dropLast[name.length - 2]? := by
    rw [List.getLast?_eq_getElem?, List.length_dropLast]
    rfl
  rw [owner?, hlast, List.getElem?_dropLast]
  split
  · rename_i h
    simp only [iff_and_self]
    simp only [length] at h ⊢
    omega
  · rename_i h
    simp only [reduceCtorEq, false_iff, not_and]
    simp only [length] at h ⊢
    omega

theorem QualifiedName.owner?_eq_none_iff {name : QualifiedName} :
    name.owner? = none ↔ name.length = 1 := by
  have hpos := name.length_pos
  rw [owner?, List.getLast?_eq_none_iff, ← List.length_eq_zero_iff, List.length_dropLast]
  simp only [length] at hpos ⊢
  omega

/-- A function without an owner belongs to no class. -/
theorem classify_append_cons_of_free {f : FunctionInfo} (h : f.name.owner? = none)
    (name : QualifiedName) (before after : List FunctionInfo) (overrides : OverrideTable) :
    classify name (before ++ f :: after) overrides = classify name (before ++ after) overrides := by
  simp [classify, ownedBy, h]

namespace OwnerIndex

variable (functions : List FunctionInfo)

theorem functionsFor_ofList (short : String) :
    (ofList functions).functionsFor short = ownedBy short functions := by
  induction functions with
  | nil => rfl
  | cons f functions ih =>
    have hcons : ofList (f :: functions) = (ofList functions).add f := rfl
    rw [hcons, functionsFor_add, ih]
    by_cases h : f.name.owner? = some short <;> simp [ownedBy, h]

theorem mem_keys_add {f : FunctionInfo} {index : OwnerIndex} {short : String} :
    short ∈ (index.add f).buckets.keys ↔
      f.name.owner? = some short ∨ short ∈ index.buckets.keys := by
  unfold add
  split
  · rename_i owner h
    rw [SortedMap.mem_keys_update, h, Option.some.injEq, eq_comm]
  · rename_i h
    simp [h]

theorem mem_keys_ofList {short : String} :
    short ∈ (ofList functions).buckets.keys ↔ ∃ f ∈ functions, f.name.owner? = some short := by
  induction functions with
  | nil => simp [ofList, empty]
  | cons f functions ih =>
    have hcons : ofList (f :: functions) = (ofList functions).add f := rfl
    rw [hcons, mem_keys_add, ih, List.exists_mem_cons_iff]

theorem freeFunctions_add (f : FunctionInfo) (index : OwnerIndex) :
    (index.add f).freeFunctions =
      index.freeFunctions + if f.name.owner? = none then 1 else 0 := by
  unfold add
  split <;> rename_i h <;> simp [h]

theorem freeFunctions_ofList :
    (ofList functions).freeFunctions = functions.countP fun f => f.name.owner? = none := by
  induction functions with
  | nil => rfl
  | cons f functions ih =>
    have hcons : ofList (f :: functions) = (ofList functions).add f := rfl
    rw [hcons, freeFunctions_add, ih, List.countP_cons]
    simp only [decide_eq_true_eq]

theorem freeFunctions_ofList_append_cons {f : FunctionInfo} (h : f.name.owner? = none)
    (before after : List FunctionInfo) :
    (ofList (before ++ f :: after)).freeFunctions = (ofList (before ++ after)).freeFunctions + 1 := by
  simp [freeFunctions_ofList, h, Nat.add_assoc]

/-- As many functions stand in buckets as have an owner. -/
theorem sum_length_functionsFor :
    ((ofList functions).buckets.keys.map fun short =>
      ((ofList functions).functionsFor short).length).sum =
      functions.countP fun f => f.name.owner?.isSome := by
  have hkeys : (ofList functions).buckets.keys.Perm
      (functions.filterMap fun f => f.name.owner?).dedup := by
    refine (List.perm_ext_iff_of_nodup (SortedMap.nodup_keys _) (List.nodup_dedup _)).mpr ?_
    intro short
    rw [mem_keys_ofList, List.mem_dedup, List.mem_filterMap]
  have hcount (short : String) : ((ofList functions).functionsFor short).length =
      (functions.filterMap fun f => f.name.owner?).count short := by
    rw [functionsFor_ofList, ownedBy, List.count_filterMap, ← List.countP_eq_length_filter]
    refine List.countP_congr fun f _ => ?_
    rw [decide_eq_true_iff, beq_iff_eq]
  simp only [hcount]
  rw [(hkeys.map _).sum_eq, List.sum_map_count_dedup_eq_length,
    List.length_filterMap_eq_countP]

/-- Every function stands in the bucket of its owner, in the order of the list, or is counted as
free. -/
structure Partitions (index : OwnerIndex) (functions : List FunctionInfo) : Prop where
  bucket : ∀ short, index.functionsFor short = functions.filter fun f =>
    2 ≤ f.name.length ∧ f.name.segments[f.name.length - 2]? = some short
  nodup : index.buckets.keys.Nodup
  owners : ∀ short, short ∈ index.buckets.keys ↔ ∃ f ∈ functions, f.name.owner? = some short
  free : index.freeFunctions = functions.countP fun f => f.name.length = 1
  total : (index.buckets.keys.map fun short => (index.functionsFor short).length).sum +
    index.freeFunctions = functions.length

theorem partitions_ofList : (ofList functions).Partitions functions where
  bucket short := by
    rw [functionsFor_ofList, ownedBy]
    simp only [QualifiedName.owner?_eq_some_iff]
  nodup := SortedMap.nodup_keys _
  owners _ := mem_keys_ofList functions
  free := by
    rw [freeFunctions_ofList]
    simp only [QualifiedName.owner?_eq_none_iff]
  total := by
    have hsplit := List.length_eq_countP_add_countP
      (fun f : FunctionInfo => f.name.owner?.isSome) (l := functions)
    rw [sum_length_functionsFor, freeFunctions_ofList, hsplit]
    simp

/-- Looking classes up in the index is the same as scanning all functions for each of them. -/
theorem ofList_agrees_with_scan :
    (∀ name overrides, (ofList functions).classify name overrides =
      DecompTracker.classify name functions overrides) ∧
    (ofList functions).Partitions functions := by
  refine ⟨fun name overrides => ?_, partitions_ofList functions⟩
  rw [classify, functionsFor_ofList, DecompTracker.classify]

end OwnerIndex

end DecompTracker
