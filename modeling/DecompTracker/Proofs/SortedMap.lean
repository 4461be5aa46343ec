import DecompTracker.SortedMap
import Mathlib.Algebra.GroupWithZero.Nat
import Mathlib.Data.List.Induction
import Mathlib.Data.List.Nodup

/-! Keys and entries of finite maps. Keys are listed without repeats, and they change as the entries
do: an inserted key is the only new one, and filtering keeps the keys that pass. Maps with the same
look-ups are the same, so a map made from a list does not depend on the order of pairs with
different keys. A sum over the values changes by what changes at the updated key. -/
namespace DecompTracker

namespace SortedMap

variable {κ ν : Type} [Ord κ]

theorem nodup_keys [Std.ReflOrd κ] (m : SortedMap κ ν) : m.keys.Nodup := by
  refine List.pairwise_map.mpr (m.sorted.imp fun h heq => ?_)
  simp [heq] at h

@[simp] theorem keys_empty : (empty : SortedMap κ ν).keys = [] := rfl

@[simp] theorem keys_filterKeys (p : κ → Bool) (m : SortedMap κ ν) :
    (m.filterKeys p).keys = m.keys.filter p := by
  simp [keys, filterKeys, List.filter_map, Function.comp_def]

@[simp] theorem keys_mapEntries {μ : Type} (f : κ → ν → μ) (m : SortedMap κ ν) :
    (m.mapEntries f).keys = m.keys := by
  simp [keys, mapEntries, Function.comp_def]

/-- The keys are what can be looked up. -/
theorem mem_keys_iff [Std.LawfulEqOrd κ] {m : SortedMap κ ν} {k : κ} :
    k ∈ m.keys ↔ ∃ v, m.get? k = some v := by
  simp [keys, get?_eq_some_iff]

theorem get?_filterKeys [Std.LawfulEqOrd κ] (p : κ → Bool) (m : SortedMap κ ν) (k : κ) :
    (m.filterKeys p).get? k = if p k then m.get? k else none := by
  refine Option.ext fun v => ?_
  rw [get?_eq_some_iff, filterKeys, List.mem_filter]
  cases p k <;> simp [get?_eq_some_iff]

theorem get?_mapEntries {μ : Type} [Std.LawfulEqOrd κ] (f : κ → ν → μ) (m : SortedMap κ ν) (k : κ) :
    (m.mapEntries f).get? k = (m.get? k).map (f k) := by
  refine Option.ext fun v => ?_
  simp only [get?_eq_some_iff, mapEntries, List.mem_map, Option.map_eq_some_iff, Prod.ext_iff,
    Prod.exists]
  constructor
  · rintro ⟨_, w, hw, rfl, rfl⟩
    exact ⟨w, hw, rfl⟩
  · rintro ⟨w, hw, rfl⟩
    exact ⟨k, w, hw, rfl, rfl⟩

variable [Std.TransOrd κ] [Std.LawfulEqOrd κ]

/-- A map is told by its look-ups, since its entries can stand in one order only. -/
theorem ext_get? {m m' : SortedMap κ ν} (h : ∀ k, m.get? k = m'.get? k) : m = m' := by
  have hmem : ∀ e, e ∈ m.entries ↔ e ∈ m'.entries := fun e => by
    rw [← get?_eq_some_iff, ← get?_eq_some_iff, h]
  have hperm : m.entries.Perm m'.entries :=
    (List.perm_ext_iff_of_nodup (List.Nodup.of_map _ m.nodup_keys)
      (List.Nodup.of_map _ m'.nodup_keys)).mpr hmem
  refine ext (hperm.eq_of_pairwise ?_ m.sorted m'.sorted)
  intro a b _ _ hab hba
  simp [Std.OrientedCmp.gt_of_lt hab] at hba

theorem mem_keys_update {m : SortedMap κ ν} {k q : κ} {f : Option ν → ν} :
    q ∈ (m.update k f).keys ↔ q = k ∨ q ∈ m.keys := by
  by_cases h : q = k
  · simp [mem_keys_iff, h, get?_update_self]
  · simp [mem_keys_iff, h, get?_update_of_ne m f h]

theorem mem_keys_insert {m : SortedMap κ ν} {k q : κ} {v : ν} (h : q ∈ (m.insert k v).keys) :
    q = k ∨ q ∈ m.keys :=
  mem_keys_update.mp h

theorem mem_keys_ofList {pairs : List (κ × ν)} {k : κ} (h : k ∈ (ofList pairs).keys) :
    ∃ e ∈ pairs, e.1 = k := by
  induction pairs using List.reverseRecOn with
  | nil => simp [ofList] at h
  | append_singleton pairs e ih =>
    rw [ofList, List.foldl_append] at h
    rcases mem_keys_insert h with rfl | h
    · exact ⟨e, by simp, rfl⟩
    · obtain ⟨f, hf, hk⟩ := ih h
      exact ⟨f, List.mem_append_left _ hf, hk⟩

theorem ofList_concat (pairs : List (κ × ν)) (e : κ × ν) :
    ofList (pairs ++ [e]) = (ofList pairs).insert e.1 e.2 := by
  simp [ofList]

/-- Pairs with different keys are all found, whatever their order. -/
theorem get?_ofList {pairs : List (κ × ν)} (h : (pairs.map Prod.fst).Nodup) {k : κ} {v : ν} :
    (ofList pairs).get? k = some v ↔ (k, v) ∈ pairs := by
  induction pairs using List.reverseRecOn with
  | nil => simp [ofList]
  | append_singleton pairs e ih =>
    rw [List.map_append, List.map_singleton] at h
    obtain ⟨hpairs, -, hne⟩ := List.nodup_append.mp h
    rw [ofList_concat, List.mem_append, List.mem_singleton]
    by_cases hk : k = e.1
    · subst hk
      have hnot : (e.1, v) ∉ pairs := fun hm =>
        hne e.1 (List.mem_map.mpr ⟨_, hm, rfl⟩) e.1 (by simp) rfl
      simp [hnot, Prod.ext_iff, eq_comm]
    · have hnot : (k, v) ≠ e := fun he => hk (he ▸ rfl)
      simp [get?_insert_of_ne _ _ hk, ih hpairs, hnot]

theorem ofList_entries (m : SortedMap κ ν) : ofList m.entries = m := by
  refine ext_get? fun k => Option.ext fun v => ?_
  rw [get?_ofList m.nodup_keys, get?_eq_some_iff]

/-- An update adds to a sum over the values what it adds at its key. -/
theorem sum_values_update (m : SortedMap κ ν) (k : κ) (f : Option ν → ν) (g : ν → Nat) :
    ((m.update k f).values.map g).sum + ((m.get? k).map g).getD 0 =
      (m.values.map g).sum + g (f (m.get? k)) := by
  obtain ⟨es, hs⟩ := m
  simp only [get?, update, values, List.map_map]
  induction es with
  | nil => simp [updateEntries]
  | cons d ds ih =>
    obtain ⟨hd, hds⟩ := List.pairwise_cons.mp hs
    rw [updateEntries]
    split
    · rename_i hlt
      simp [hlt, find?_eq_none_of_lt hlt hd, Nat.add_comm]
    · rename_i heq
      simp only [heq, List.map_cons, List.sum_cons, Function.comp_apply, List.find?_cons,
        beq_self_eq_true, Option.map_some, Option.getD_some]
      omega
    · rename_i hgt
      have hfind : ((d :: ds).find? fun e => compare k e.1 == .eq) =
          ds.find? fun e => compare k e.1 == .eq := by simp [hgt]
      rw [hfind, List.map_cons, List.sum_cons, List.map_cons, List.sum_cons, Nat.add_assoc, ih hds,
        Nat.add_assoc]

end SortedMap

namespace SortedSet

variable {α : Type} [Ord α]

@[simp] theorem toList_filter (p : α → Bool) (s : SortedSet α) :
    (s.filter p).toList = s.toList.filter p :=
  SortedMap.keys_filterKeys p s

theorem get?_eq_some_iff_mem [Std.LawfulEqOrd α] {s : SortedSet α} {a : α} :
    s.get? a = some () ↔ a ∈ s.toList := by
  refine ⟨fun h => SortedMap.mem_keys_iff.mpr ⟨(), h⟩, fun h => ?_⟩
  obtain ⟨_, h⟩ := SortedMap.mem_keys_iff.mp h
  exact h

variable [Std.TransOrd α] [Std.LawfulEqOrd α]

/-- A set is told by its members. -/
theorem ext_mem {s s' : SortedSet α} (h : ∀ a, a ∈ s.toList ↔ a ∈ s'.toList) : s = s' := by
  refine SortedMap.ext_get? fun a => Option.ext fun _ => ?_
  rw [get?_eq_some_iff_mem, get?_eq_some_iff_mem, h]

theorem mem_toList_ofList {members : List α} {a : α} :
    a ∈ (ofList members).toList ↔ a ∈ members := by
  induction members using List.reverseRecOn with
  | nil => simp [ofList, toList]
  | append_singleton members b ih =>
    have hstep : ofList (members ++ [b]) = SortedMap.insert (ofList members) b () := by
      simp [ofList]
    rw [hstep, toList, SortedMap.insert, SortedMap.mem_keys_update, ← toList, ih, List.mem_append,
      List.mem_singleton, or_comm]

end SortedSet

end DecompTracker
