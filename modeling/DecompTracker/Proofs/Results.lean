import Mathlib.Data.List.Forall2

/-! Results that may be errors. Where only what comes out matters, the error is left out. A run over a
list succeeds when each of its items does, and fails as the first item that does not. -/
namespace DecompTracker

theorem toOption_eq_some_iff {α ε : Type} {x : Except ε α} {a : α} :
    x.toOption = some a ↔ x = .ok a := by
  cases x <;> simp [Except.toOption]

/-- A result that passes a test is a result. -/
theorem exists_ok_of_any {α ε : Type} {x : Except ε α} {P : α → Prop} [DecidablePred P]
    (h : (x.toOption.any fun a => P a) = true) : ∃ a, x = .ok a ∧ P a := by
  cases x with
  | error e => exact absurd h Bool.false_ne_true
  | ok a => exact ⟨a, rfl, of_decide_eq_true h⟩

theorem toOption_mapError {ε ε' α : Type} {f : ε → ε'} (x : Except ε α) :
    (x.mapError f).toOption = x.toOption := by
  cases x <;> rfl

/-- Two runs over lists that agree item by item agree. -/
theorem toOption_mapM_of_forall₂ {α β γ δ ε ε' : Type} {f : α → Except ε γ} {g : β → Except ε' δ}
    {change : δ → γ} {as : List α} {bs : List β}
    (h : List.Forall₂ (fun a b => (f a).toOption = (g b).toOption.map change) as bs) :
    (as.mapM f).toOption = (bs.mapM g).toOption.map (List.map change) := by
  induction h with
  | nil => rfl
  | @cons a b as bs hab _ ih =>
    rw [List.mapM_cons, List.mapM_cons]
    cases hf : f a <;> cases hg : g b <;>
      simp only [hf, hg, Except.toOption, Option.map_none, Option.map_some, reduceCtorEq,
        Option.some.injEq] at hab
    · rfl
    · cases hfs : as.mapM f <;> cases hgs : bs.mapM g <;>
        simp_all [Except.toOption, bind, Except.bind, pure, Except.pure]

theorem bind_eq_ok_iff {α β ε : Type} {x : Except ε α} {f : α → Except ε β} {b : β} :
    (x >>= f) = .ok b ↔ ∃ a, x = .ok a ∧ f a = .ok b := by
  cases x <;> simp [bind, Except.bind]

theorem bind_eq_error_iff {α β ε : Type} {x : Except ε α} {f : α → Except ε β} {e : ε} :
    (x >>= f) = .error e ↔ x = .error e ∨ ∃ a, x = .ok a ∧ f a = .error e := by
  cases x <;> simp [bind, Except.bind]

theorem mapError_eq_ok_iff {α ε ε' : Type} {f : ε → ε'} {x : Except ε α} {a : α} :
    x.mapError f = .ok a ↔ x = .ok a := by
  cases x <;> simp [Except.mapError]

theorem mapM_eq_ok_iff {α β ε : Type} {f : α → Except ε β} {as : List α} {bs : List β} :
    as.mapM f = .ok bs ↔ List.Forall₂ (fun a b => f a = .ok b) as bs := by
  induction as generalizing bs with
  | nil => simp [pure, Except.pure, eq_comm]
  | cons a as ih =>
    rw [List.mapM_cons, List.forall₂_cons_left_iff, bind_eq_ok_iff]
    constructor
    · intro h
      obtain ⟨b, hb, h⟩ := h
      obtain ⟨cs, hcs, hbs⟩ := bind_eq_ok_iff.mp h
      exact ⟨b, cs, hb, ih.mp hcs, (Except.ok.inj hbs).symm⟩
    · intro h
      obtain ⟨b, cs, hb, hcs, rfl⟩ := h
      exact ⟨b, hb, bind_eq_ok_iff.mpr ⟨cs, ih.mpr hcs, rfl⟩⟩

/-- The first item that fails decides the error. -/
theorem mapM_eq_error_of_first {α β ε : Type} {f : α → Except ε β} {before : List α}
    (hbefore : ∀ a ∈ before, ∃ b, f a = .ok b) {a : α} {e : ε} (ha : f a = .error e)
    (after : List α) : (before ++ a :: after).mapM f = .error e := by
  induction before with
  | nil =>
    rw [List.nil_append, List.mapM_cons, ha]
    rfl
  | cons b before ih =>
    obtain ⟨⟨c, hc⟩, hbefore⟩ := List.forall_mem_cons.mp hbefore
    rw [List.cons_append, List.mapM_cons, hc, ih hbefore]
    rfl

theorem exists_mapM_ok_iff {α β ε : Type} {f : α → Except ε β} {as : List α} :
    (∃ bs, as.mapM f = .ok bs) ↔ ∀ a ∈ as, ∃ b, f a = .ok b := by
  induction as with
  | nil => simp [pure, Except.pure]
  | cons a as ih =>
    rw [List.mapM_cons, List.forall_mem_cons, ← ih]
    cases f a with
    | error => simp [bind, Except.bind]
    | ok b => cases as.mapM f <;> simp [bind, Except.bind, pure, Except.pure]

end DecompTracker
