/-! Sizes of texts in UTF-8 bytes, and cutting a text after a number of bytes. A cut succeeds only
between two characters. -/
namespace DecompTracker.Text

def byteLength : List Char → Nat
  | [] => 0
  | c :: cs => c.utf8Size + byteLength cs

@[simp] theorem byteLength_nil : byteLength [] = 0 := rfl

@[simp] theorem byteLength_cons (c : Char) (cs : List Char) :
    byteLength (c :: cs) = c.utf8Size + byteLength cs := rfl

@[simp] theorem byteLength_append (cs ds : List Char) :
    byteLength (cs ++ ds) = byteLength cs + byteLength ds := by
  induction cs with
  | nil => simp
  | cons c cs ih => simp [ih, Nat.add_assoc]

/-- The first `n` bytes and what follows them. -/
def takeBytes : Nat → List Char → Option (List Char × List Char)
  | n, [] => if n = 0 then some ([], []) else none
  | n, c :: cs =>
    if n = 0 then some ([], c :: cs)
    else if c.utf8Size ≤ n then (takeBytes (n - c.utf8Size) cs).map fun p => (c :: p.1, p.2)
    else none

/-- A cut after `n` bytes succeeds exactly when some leading part has `n` bytes. -/
theorem takeBytes_eq_some_iff {n : Nat} {cs front back : List Char} :
    takeBytes n cs = some (front, back) ↔ cs = front ++ back ∧ byteLength front = n := by
  induction cs generalizing n front with
  | nil =>
    rw [takeBytes]
    constructor
    · intro h
      split at h
      · simp only [Option.some.injEq, Prod.mk.injEq] at h
        obtain ⟨rfl, rfl⟩ := h
        simp_all
      · simp at h
    · rintro ⟨h, rfl⟩
      obtain ⟨rfl, rfl⟩ := List.append_eq_nil_iff.mp h.symm
      simp
  | cons c cs ih =>
    have hc := c.utf8Size_pos
    rw [takeBytes]
    split
    · cases front with
      | nil => simp_all [eq_comm]
      | cons d front =>
        have hd := d.utf8Size_pos
        simp only [Option.some.injEq, Prod.mk.injEq, List.nil_eq, reduceCtorEq, false_and,
          byteLength_cons, false_iff, not_and]
        omega
    · split
      · simp only [Option.map_eq_some_iff, Prod.mk.injEq, Prod.exists]
        constructor
        · rintro ⟨front', back', h, rfl, rfl⟩
          obtain ⟨rfl, h⟩ := ih.mp h
          simp; omega
        · rintro ⟨h, rfl⟩
          cases front with
          | nil => simp_all
          | cons d front =>
            simp only [List.cons_append, List.cons.injEq] at h
            obtain ⟨rfl, rfl⟩ := h
            exact ⟨front, back, ih.mpr ⟨rfl, by simp⟩, rfl, rfl⟩
      · simp only [reduceCtorEq, false_iff, not_and]
        rintro h rfl
        cases front with
        | nil => simp_all
        | cons d front =>
          simp only [List.cons_append, List.cons.injEq] at h
          obtain ⟨rfl, rfl⟩ := h
          simp at *

end DecompTracker.Text
