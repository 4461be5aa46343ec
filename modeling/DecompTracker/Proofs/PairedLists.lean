import Mathlib.Data.List.Forall2

/-! Lists whose entries are related in pairs. What is made in the same way from each entry of two such
lists is related in pairs again. -/
namespace DecompTracker

variable {α β γ : Type} {R : α → β → Prop} {l : List α} {l' : List β}

theorem exists_of_forall₂ (h : List.Forall₂ R l l') : ∀ a ∈ l, ∃ b ∈ l', R a b := by
  induction h with
  | nil => simp
  | cons hab _ ih =>
    refine List.forall_mem_cons.mpr ⟨⟨_, List.mem_cons_self, hab⟩, fun a ha => ?_⟩
    obtain ⟨b, hb, hr⟩ := ih a ha
    exact ⟨b, List.mem_cons_of_mem _ hb, hr⟩

theorem exists_of_forall₂_right (h : List.Forall₂ R l l') : ∀ b ∈ l', ∃ a ∈ l, R a b :=
  exists_of_forall₂ (R := fun b a => R a b) h.flip

theorem rel_of_getElem? (h : List.Forall₂ R l l') {i : Nat} {a : α} {b : β} (ha : l[i]? = some a)
    (hb : l'[i]? = some b) : R a b := by
  obtain ⟨hi, rfl⟩ := List.getElem?_eq_some_iff.mp ha
  obtain ⟨hi', rfl⟩ := List.getElem?_eq_some_iff.mp hb
  exact h.get hi hi'

theorem map_eq_of_forall₂ {f : α → γ} {g : β → γ} (hfg : ∀ a b, R a b → f a = g b)
    (h : List.Forall₂ R l l') : l.map f = l'.map g := by
  induction h with
  | nil => rfl
  | cons hab _ ih => rw [List.map_cons, List.map_cons, hfg _ _ hab, ih]

theorem countP_le_of_forall₂ {p : α → Bool} {q : β → Bool}
    (hpq : ∀ a b, R a b → p a = true → q b = true) (h : List.Forall₂ R l l') :
    l.countP p ≤ l'.countP q := by
  induction h with
  | nil => exact Nat.le_refl _
  | @cons a b l l' hab _ ih =>
    rw [List.countP_cons, List.countP_cons]
    split
    · rename_i ha
      rw [if_pos (hpq a b hab ha)]
      omega
    · omega

theorem forall₂_zipIdx (h : List.Forall₂ R l l') (start : Nat) :
    List.Forall₂ (fun a b => R a.1 b.1 ∧ a.2 = b.2) (l.zipIdx start) (l'.zipIdx start) := by
  induction h generalizing start with
  | nil => exact .nil
  | cons hab _ ih => exact .cons ⟨hab, rfl⟩ (ih (start + 1))

/-- Two runs over one list that succeed give related results. -/
theorem forall₂_of_mapM {f : γ → Option α} {g : γ → Option β}
    (hr : ∀ c a b, f c = some a → g c = some b → R a b) {cs : List γ} (hf : cs.mapM f = some l)
    (hg : cs.mapM g = some l') : List.Forall₂ R l l' := by
  induction cs generalizing l l' with
  | nil =>
    obtain rfl : l = [] := by simpa using hf.symm
    obtain rfl : l' = [] := by simpa using hg.symm
    exact .nil
  | cons c cs ih =>
    simp only [List.mapM_cons, Option.bind_eq_bind, Option.bind_eq_some_iff, Option.pure_def,
      Option.some.injEq] at hf hg
    obtain ⟨a, ha, as, has, rfl⟩ := hf
    obtain ⟨b, hb, bs, hbs, rfl⟩ := hg
    exact .cons (hr c a b ha hb) (ih has hbs)

end DecompTracker
