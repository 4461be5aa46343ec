/-! Finite maps whose entries stand in strictly increasing key order, so two maps with the same
answers are the same map. Looking a key up after a change gives the new value for that key and the
old answer for every other one. -/
namespace DecompTracker

structure SortedMap (κ ν : Type) [Ord κ] where
  entries : List (κ × ν)
  sorted : entries.Pairwise fun a b => compare a.1 b.1 = .lt

namespace SortedMap

variable {κ ν : Type} [Ord κ]

@[ext] theorem ext {m m' : SortedMap κ ν} (h : m.entries = m'.entries) : m = m' := by
  cases m; cases m'; subst h; rfl

instance [DecidableEq κ] [DecidableEq ν] : DecidableEq (SortedMap κ ν) := fun m m' =>
  decidable_of_iff (m.entries = m'.entries) ⟨ext, fun h => h ▸ rfl⟩

def empty : SortedMap κ ν := ⟨[], .nil⟩

instance : EmptyCollection (SortedMap κ ν) := ⟨empty⟩
instance : Inhabited (SortedMap κ ν) := ⟨empty⟩

def keys (m : SortedMap κ ν) : List κ := m.entries.map Prod.fst
def values (m : SortedMap κ ν) : List ν := m.entries.map Prod.snd
def size (m : SortedMap κ ν) : Nat := m.entries.length
def isEmpty (m : SortedMap κ ν) : Bool := m.entries.isEmpty

def get? (m : SortedMap κ ν) (k : κ) : Option ν :=
  (m.entries.find? fun e => compare k e.1 == .eq).map Prod.snd

@[simp] theorem get?_empty (k : κ) : (empty : SortedMap κ ν).get? k = none := rfl

def contains (m : SortedMap κ ν) (k : κ) : Bool := (m.get? k).isSome

/-- Gives `k` the value computed from its present one, at its place in the order. -/
def updateEntries (k : κ) (f : Option ν → ν) : List (κ × ν) → List (κ × ν)
  | [] => [(k, f none)]
  | e :: es =>
    match compare k e.1 with
    | .lt => (k, f none) :: e :: es
    | .eq => (k, f (some e.2)) :: es
    | .gt => e :: updateEntries k f es

theorem mem_updateEntries {k : κ} {f : Option ν → ν} {es : List (κ × ν)} {e : κ × ν}
    (h : e ∈ updateEntries k f es) : e.1 = k ∨ e ∈ es := by
  induction es with
  | nil => simp_all [updateEntries]
  | cons d ds ih =>
    rw [updateEntries] at h
    split at h
    · rcases List.mem_cons.mp h with rfl | h
      · exact .inl rfl
      · exact .inr h
    · rcases List.mem_cons.mp h with rfl | h
      · exact .inl rfl
      · exact .inr (List.mem_cons_of_mem _ h)
    · rcases List.mem_cons.mp h with rfl | h
      · exact .inr (by simp)
      · exact (ih h).imp_right (List.mem_cons_of_mem _)

variable [Std.TransOrd κ]

theorem find?_eq_none_of_lt {k : κ} {d : κ × ν} {es : List (κ × ν)} (hk : compare k d.1 = .lt)
    (hd : ∀ e ∈ es, compare d.1 e.1 = .lt) : (es.find? fun e => compare k e.1 == .eq) = none := by
  simp only [List.find?_eq_none, beq_iff_eq]
  intro e he
  simp [Std.TransCmp.lt_trans hk (hd e he)]

variable [Std.LawfulEqOrd κ]

theorem sorted_updateEntries (k : κ) (f : Option ν → ν) {es : List (κ × ν)}
    (h : es.Pairwise fun a b => compare a.1 b.1 = .lt) :
    (updateEntries k f es).Pairwise fun a b => compare a.1 b.1 = .lt := by
  induction es with
  | nil => simp [updateEntries]
  | cons d ds ih =>
    obtain ⟨hd, hds⟩ := List.pairwise_cons.mp h
    rw [updateEntries]
    split
    · rename_i hlt
      refine List.pairwise_cons.mpr ⟨fun e he => ?_, h⟩
      rcases List.mem_cons.mp he with rfl | he
      · exact hlt
      · exact Std.TransCmp.lt_trans hlt (hd e he)
    · rename_i heq
      have hk := Std.LawfulEqCmp.eq_of_compare heq
      subst hk
      exact List.pairwise_cons.mpr ⟨hd, hds⟩
    · rename_i hgt
      refine List.pairwise_cons.mpr ⟨fun e he => ?_, ih hds⟩
      rcases mem_updateEntries he with rfl | he
      · exact Std.OrientedCmp.lt_of_gt hgt
      · exact hd e he

def update (m : SortedMap κ ν) (k : κ) (f : Option ν → ν) : SortedMap κ ν :=
  ⟨updateEntries k f m.entries, sorted_updateEntries k f m.sorted⟩

/-- A value given to a key replaces the one it had. -/
def insert (m : SortedMap κ ν) (k : κ) (v : ν) : SortedMap κ ν := m.update k fun _ => v

/-- Later pairs replace earlier ones with the same key. -/
def ofList (pairs : List (κ × ν)) : SortedMap κ ν :=
  pairs.foldl (fun m e => m.insert e.1 e.2) empty

omit [Std.TransOrd κ] in
/-- Looking up agrees with standing among the entries. -/
theorem get?_eq_some_iff (m : SortedMap κ ν) (k : κ) (v : ν) :
    m.get? k = some v ↔ (k, v) ∈ m.entries := by
  obtain ⟨es, hs⟩ := m
  simp only [get?]
  induction es with
  | nil => simp
  | cons d ds ih =>
    obtain ⟨hd, hds⟩ := List.pairwise_cons.mp hs
    by_cases he : compare k d.1 = .eq
    · have hk : k = d.1 := Std.LawfulEqCmp.eq_of_compare he
      have hn : (d.1, v) ∉ ds := fun h => by simpa using hd _ h
      simp [hk, hn, Prod.ext_iff, eq_comm]
    · have hk : (k, v) ≠ d := by rintro rfl; exact he Std.ReflCmp.compare_self
      simp [he, hk, ih hds]

theorem get?_update_self (m : SortedMap κ ν) (k : κ) (f : Option ν → ν) :
    (m.update k f).get? k = some (f (m.get? k)) := by
  obtain ⟨es, hs⟩ := m
  simp only [get?, update]
  induction es with
  | nil => simp [updateEntries, Std.ReflCmp.compare_self]
  | cons d ds ih =>
    obtain ⟨hd, hds⟩ := List.pairwise_cons.mp hs
    rw [updateEntries]
    split
    · rename_i hlt
      simp [Std.ReflCmp.compare_self, hlt, find?_eq_none_of_lt hlt hd]
    · rename_i heq
      simp [Std.ReflCmp.compare_self, heq]
    · rename_i hgt
      simp only [List.find?_cons, hgt]
      exact ih hds

theorem get?_update_of_ne (m : SortedMap κ ν) {k q : κ} (f : Option ν → ν) (h : q ≠ k) :
    (m.update k f).get? q = m.get? q := by
  have hne : compare q k ≠ .eq := fun he => h (Std.LawfulEqCmp.eq_of_compare he)
  obtain ⟨es, hs⟩ := m
  simp only [get?, update]
  induction es with
  | nil => simp [updateEntries, hne]
  | cons d ds ih =>
    obtain ⟨hd, hds⟩ := List.pairwise_cons.mp hs
    rw [updateEntries]
    split
    · simp [hne]
    · rename_i heq
      have hk : k = d.1 := Std.LawfulEqCmp.eq_of_compare heq
      subst hk
      simp [hne]
    · simp only [List.find?_cons]
      split
      · rfl
      · exact ih hds

@[simp] theorem get?_insert_self (m : SortedMap κ ν) (k : κ) (v : ν) :
    (m.insert k v).get? k = some v := get?_update_self m k _

theorem get?_insert_of_ne (m : SortedMap κ ν) {k q : κ} (v : ν) (h : q ≠ k) :
    (m.insert k v).get? q = m.get? q := get?_update_of_ne m _ h

/-- Only the entries whose key passes the test. -/
def filterKeys (p : κ → Bool) (m : SortedMap κ ν) : SortedMap κ ν :=
  ⟨m.entries.filter fun e => p e.1, m.sorted.filter _⟩

/-- The same keys, each with a value computed from its entry. -/
def mapEntries {μ : Type} (f : κ → ν → μ) (m : SortedMap κ ν) : SortedMap κ μ :=
  ⟨m.entries.map fun e => (e.1, f e.1 e.2), List.pairwise_map.mpr m.sorted⟩

end SortedMap

/-- A set is a map that says nothing more about its members. -/
abbrev SortedSet (α : Type) [Ord α] := SortedMap α Unit

namespace SortedSet

variable {α : Type} [Ord α]

def toList (s : SortedSet α) : List α := s.keys

/-- Set members are listed in strictly increasing order. -/
theorem pairwise_toList (s : SortedSet α) : s.toList.Pairwise fun a b => compare a b = .lt :=
  List.pairwise_map.mpr s.sorted

def filter (p : α → Bool) (s : SortedSet α) : SortedSet α :=
  ⟨s.entries.filter fun e => p e.1, s.sorted.filter _⟩

def ofList [Std.TransOrd α] [Std.LawfulEqOrd α] (members : List α) : SortedSet α :=
  members.foldl (fun s a => SortedMap.insert s a ()) SortedMap.empty

end SortedSet

end DecompTracker
