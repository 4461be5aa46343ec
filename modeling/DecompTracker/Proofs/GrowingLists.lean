import Mathlib.Data.List.Induction
import Mathlib.Data.List.Nodup

/-! Lists that grow at their end. An entry added there has the length as its position, and with
every repeat after a first occurrence removed only entries not seen before are added. -/
namespace DecompTracker

theorem getElem?_concat_eq_some_iff {γ : Type} {l : List γ} {a b : γ} {i : Nat} :
    (l ++ [a])[i]? = some b ↔ l[i]? = some b ∨ (i = l.length ∧ a = b) := by
  rcases Nat.lt_trichotomy i l.length with hlt | rfl | hgt
  · simp [List.getElem?_append_left hlt, Nat.ne_of_lt hlt]
  · simp
  · have hl : l[i]? = none := List.getElem?_eq_none (Nat.le_of_lt hgt)
    have hla : (l ++ [a])[i]? = none := List.getElem?_eq_none (by simp; omega)
    simp [hl, hla, Nat.ne_of_gt hgt]

variable {α β : Type} [DecidableEq α] [DecidableEq β]

theorem eraseDups_concat (l : List α) (a : α) :
    (l ++ [a]).eraseDups = if a ∈ l then l.eraseDups else l.eraseDups ++ [a] := by
  by_cases h : a ∈ l <;> simp [List.eraseDups_append, List.eraseDups_cons, List.removeAll, h]

theorem nodup_eraseDups (l : List α) : l.eraseDups.Nodup := by
  induction l using List.reverseRecOn with
  | nil => simp
  | append_singleton l a ih =>
    rw [eraseDups_concat]
    split_ifs with h
    · exact ih
    · refine List.nodup_append.mpr ⟨ih, by simp, ?_⟩
      simpa using fun b hb => ne_of_mem_of_not_mem hb h

theorem eraseDups_append_of_nodup (l : List α) {m : List α} (hm : m.Nodup) :
    (l ++ m).eraseDups = l.eraseDups ++ m.filter (· ∉ l) := by
  induction m using List.reverseRecOn with
  | nil => simp
  | append_singleton m a ih =>
    obtain ⟨hm, -, hne⟩ := List.nodup_append.mp hm
    have ha : a ∉ m := fun h => hne a h a (by simp) rfl
    rw [← List.append_assoc, eraseDups_concat, ih hm]
    by_cases h : a ∈ l <;> simp [h, ha]

theorem eraseDups_of_nodup {l : List α} (h : l.Nodup) : l.eraseDups = l := by
  simpa using eraseDups_append_of_nodup [] h

theorem eraseDups_append_of_disjoint {l m : List α} (hl : l.Nodup) (hd : List.Disjoint l m) :
    (l ++ m).eraseDups = l ++ m.eraseDups := by
  have hm : m.removeAll l = m := by
    simpa [List.removeAll] using fun a ha hal => hd hal ha
  rw [List.eraseDups_append, eraseDups_of_nodup hl, hm]

/-- Repeats are removed alike before and after each entry is replaced by entries of its own. -/
theorem eraseDups_flatMap {f : α → List β} {l : List α} (hn : ∀ a ∈ l, (f a).Nodup)
    (hd : ∀ a ∈ l, ∀ b ∈ l, a ≠ b → List.Disjoint (f a) (f b)) :
    (l.flatMap f).eraseDups = l.eraseDups.flatMap f := by
  induction l using List.reverseRecOn with
  | nil => simp
  | append_singleton l a ih =>
    have hrest : (l.flatMap f).eraseDups = l.eraseDups.flatMap f :=
      ih (fun b hb => hn b (List.mem_append_left _ hb)) fun b hb c hc =>
        hd b (List.mem_append_left _ hb) c (List.mem_append_left _ hc)
    have hlast : [a].flatMap f = f a := by simp
    rw [List.flatMap_append, hlast, eraseDups_append_of_nodup _ (hn a (by simp)), hrest,
      eraseDups_concat]
    by_cases ha : a ∈ l
    · have hold : (f a).filter (· ∉ l.flatMap f) = [] := by
        simp only [List.filter_eq_nil_iff, decide_eq_true_eq, not_not]
        exact fun b hb => List.mem_flatMap.mpr ⟨a, ha, hb⟩
      rw [if_pos ha, hold, List.append_nil]
    · have hnew : (f a).filter (· ∉ l.flatMap f) = f a := by
        simp only [List.filter_eq_self, decide_eq_true_eq]
        intro b hb hbl
        obtain ⟨c, hc, hbc⟩ := List.mem_flatMap.mp hbl
        exact hd a (by simp) c (List.mem_append_left _ hc) (ne_of_mem_of_not_mem hc ha).symm hb hbc
      rw [if_neg ha, hnew, List.flatMap_append, hlast]

theorem eraseDups_map {f : α → β} {l : List α} (hf : ∀ a ∈ l, ∀ b ∈ l, f a = f b → a = b) :
    (l.map f).eraseDups = l.eraseDups.map f := by
  induction l using List.reverseRecOn with
  | nil => simp
  | append_singleton l a ih =>
    have hl : ∀ b ∈ l, ∀ c ∈ l, f b = f c → b = c := fun b hb c hc =>
      hf b (List.mem_append_left _ hb) c (List.mem_append_left _ hc)
    have hmem : f a ∈ l.map f ↔ a ∈ l := by
      refine ⟨fun h => ?_, List.mem_map_of_mem⟩
      obtain ⟨b, hb, he⟩ := List.mem_map.mp h
      exact hf b (List.mem_append_left _ hb) a (by simp) he ▸ hb
    rw [List.map_append, List.map_singleton, eraseDups_concat, eraseDups_concat, ih hl]
    by_cases h : a ∈ l <;> simp [hmem, h]

end DecompTracker
