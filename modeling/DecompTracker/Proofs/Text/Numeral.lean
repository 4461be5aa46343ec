import DecompTracker.Text.Numeral
import DecompTracker.Proofs.Text.Utf8
import Mathlib.Algebra.GroupWithZero.Nat
import Mathlib.Data.List.Forall2
import Mathlib.Data.List.Induction
import Mathlib.Data.Nat.Basic

/-! Decimal numerals and sums of machine words. The value of a numeral is the one that unbounded
arithmetic gives, up to the largest machine word; a larger one is refused, and so is any text that is
no numeral. Sums stop at that word, so they do not depend on the order of what is added. -/
namespace DecompTracker.Text

/-- A run ends in front of the first character that does not belong to it. -/
theorem takeWhile_dropWhile_of_run {p : Char → Bool} {as bs : List Char}
    (has : ∀ a ∈ as, p a = true) (hbs : ∀ b ∈ bs.head?, ¬ p b = true) :
    (as ++ bs).takeWhile p = as ∧ (as ++ bs).dropWhile p = bs := by
  rw [List.takeWhile_append_of_pos has, List.dropWhile_append_of_pos has]
  cases bs with
  | nil => simp
  | cons b bs => simp [hbs b rfl]

theorem digitValue?_ten {c : Char} (hc : c.isDigit = true) :
    digitValue? 10 c = some (c.toNat - '0'.toNat) := by
  have h := isDigit_iff_toNat.mp hc
  have hrange : '0' ≤ c ∧ c ≤ '9' := by
    simp only [Char.le_def, UInt32.le_iff_toNat_le]
    exact h
  have hlt : c.toNat - '0'.toNat < 10 := by
    have hzero : '0'.toNat = 48 := rfl
    omega
  rw [digitValue?, hexValue?, if_pos hrange, Option.filter_some, if_pos (by simpa using hlt)]

theorem le_foldl_digits {radix : Nat} (hradix : 0 < radix) (n : Nat) (ds : List Nat) :
    n ≤ ds.foldl (fun m d => m * radix + d) n := by
  induction ds generalizing n with
  | nil => exact le_rfl
  | cons d ds ih =>
    have hn : n ≤ n * radix := Nat.le_mul_of_pos_right n hradix
    exact Nat.le_trans (Nat.le_add_right_of_le hn) (ih (n * radix + d))

theorem le_ofDigitChars (n : Nat) (ds : List Char) : n ≤ Nat.ofDigitChars 10 ds n := by
  have hpos : 0 < 10 ^ ds.length := Nat.pow_pos (by decide)
  rw [Nat.ofDigitChars_eq_ofDigitChars_zero]
  exact Nat.le_trans (Nat.le_mul_of_pos_left n hpos) (Nat.le_add_right _ _)

/-- A value that has grown too large stays so, hence stopping at once refuses no more numerals. -/
theorem extend_of_digits {radix n : Nat} {cs : List Char} {ds : List Nat} (hn : n ≤ maxWord)
    (h : List.Forall₂ (fun c d => digitValue? radix c = some d) cs ds) :
    extend radix n cs =
      if ds.foldl (fun m d => m * radix + d) n ≤ maxWord then
        .ok (ds.foldl (fun m d => m * radix + d) n)
      else .error .tooLarge := by
  induction h generalizing n with
  | nil => simp [extend, hn]
  | @cons c d cs ds hd hds ih =>
    rw [extend, hd, List.foldl_cons]
    dsimp only
    by_cases hle : n * radix + d ≤ maxWord
    · rw [if_pos hle]
      exact ih hle
    · have hradix : 0 < radix := Nat.zero_lt_of_lt (digitValue?_lt hd)
      have hgrown := le_foldl_digits hradix (n * radix + d) ds
      rw [if_neg hle, if_neg (by omega)]

theorem extend_decimal {n : Nat} {ds : List Char} (hn : n ≤ maxWord)
    (hds : ∀ c ∈ ds, c.isDigit = true) :
    extend 10 n ds = if Nat.ofDigitChars 10 ds n ≤ maxWord then .ok (Nat.ofDigitChars 10 ds n)
      else .error .tooLarge := by
  have hvalues : List.Forall₂ (fun c d => digitValue? 10 c = some d) ds
      (ds.map fun c => c.toNat - '0'.toNat) :=
    List.forall₂_map_right_iff.mpr (List.forall₂_same.mpr fun c hc => digitValue?_ten (hds c hc))
  have hfold : (ds.map fun c => c.toNat - '0'.toNat).foldl (fun m d => m * 10 + d) n =
      Nat.ofDigitChars 10 ds n := by
    rw [List.foldl_map, Nat.ofDigitChars]
    simp only [Nat.mul_comm 10]
  rw [extend_of_digits hn hvalues, hfold]

theorem wordOfChars_of_head? {radix : Nat} {ds : List Char} (hne : ds ≠ [])
    (hplus : ds.head? ≠ some '+') : wordOfChars radix ds = extend radix 0 ds := by
  cases ds with
  | nil => exact absurd rfl hne
  | cons c cs =>
    have hc : c ≠ '+' := by simpa using hplus
    rw [wordOfChars]
    · simp
    · simp [hc]
    · simp [hc]

theorem wordOfChars_of_digits {radix : Nat} {ds : List Char} (hne : ds ≠ [])
    (hds : ∀ c ∈ ds, c.isDigit = true) : wordOfChars radix ds = extend radix 0 ds := by
  refine wordOfChars_of_head? hne fun hplus => ?_
  have hdigit := hds '+' (List.mem_of_head? hplus)
  exact absurd hdigit (by decide)

/-- The decimal digits of a machine word are read as that word. -/
theorem wordOfChars_toDigits {n : Nat} (hn : n ≤ maxWord) :
    wordOfChars 10 (Nat.toDigits 10 n) = .ok n := by
  have hds : ∀ c ∈ Nat.toDigits 10 n, c.isDigit = true := fun c hc =>
    Nat.isDigit_of_mem_toDigits (by decide) (by decide) hc
  rw [wordOfChars_of_digits Nat.toDigits_ne_nil hds, extend_decimal (Nat.zero_le _) hds,
    Nat.ofDigitChars_ten_toDigits, if_pos hn]

/-! Texts of numerals -/

theorem isDigit_of_digitValue?_ten {c : Char} {d : Nat} (h : digitValue? 10 c = some d) :
    c.isDigit = true := by
  rw [isDigit_iff_toNat]
  obtain ⟨hd, hlt⟩ := Option.filter_eq_some_iff.mp h
  have hten : d < 10 := by simpa using hlt
  unfold hexValue? at hd
  split at hd
  · rename_i hrange
    simpa [Char.le_def, UInt32.le_iff_toNat_le] using hrange
  · -- A letter stands for ten or more.
    split at hd
    · have := Option.some.inj hd
      omega
    · split at hd
      · have := Option.some.inj hd
        omega
      · simp at hd

/-- Nothing but digits is read. -/
theorem exists_digitValue?_of_extend {radix n m : Nat} {cs : List Char}
    (h : extend radix n cs = .ok m) : ∀ c ∈ cs, ∃ d, digitValue? radix c = some d := by
  induction cs generalizing n with
  | nil => simp
  | cons c cs ih =>
    rw [extend] at h
    split at h
    · simp at h
    · rename_i d hd
      split at h
      · exact List.forall_mem_cons.mpr ⟨⟨d, hd⟩, ih h⟩
      · simp at h

/-- One plus sign in front of the digits makes no difference. -/
theorem wordOfChars_of_numeral {radix : Nat} {cs digits : List Char} (hne : digits ≠ [])
    (hplus : digits.head? ≠ some '+') (hcs : cs = digits ∨ cs = '+' :: digits) :
    wordOfChars radix cs = extend radix 0 digits := by
  rcases hcs with rfl | rfl
  · exact wordOfChars_of_head? hne hplus
  · rw [wordOfChars]
    exact hne

/-- A numeral is a run of digits, perhaps with a plus sign in front. -/
theorem wordOfChars_eq_ok_iff {radix n : Nat} {cs : List Char} :
    wordOfChars radix cs = .ok n ↔
      ∃ digits, digits ≠ [] ∧ (cs = digits ∨ cs = '+' :: digits) ∧
        extend radix 0 digits = .ok n := by
  constructor
  · intro h
    unfold wordOfChars at h
    split at h
    · simp at h
    · simp at h
    · rename_i digits hne
      exact ⟨digits, hne, .inr rfl, h⟩
    · rename_i hne _ _
      exact ⟨_, hne, .inl rfl, h⟩
  · rintro ⟨digits, hne, hcs, h⟩
    rw [wordOfChars_of_numeral hne ?_ hcs]
    · exact h
    · intro hplus
      obtain ⟨d, hd⟩ := exists_digitValue?_of_extend h '+' (List.mem_of_head? hplus)
      have hnone : digitValue? radix '+' = none := rfl
      simp [hnone] at hd

/-- A decimal numeral: at least one digit, perhaps with a plus sign in front. -/
def IsDecimal (s : String) (n : Nat) : Prop :=
  ∃ digits : List Char, digits ≠ [] ∧ (∀ c ∈ digits, c.isDigit = true) ∧
    (s.toList = digits ∨ s.toList = '+' :: digits) ∧ Nat.ofDigitChars 10 digits 0 = n

theorem word_ten_eq_ok_iff {s : String} {n : Nat} :
    word 10 s = .ok n ↔ IsDecimal s n ∧ n ≤ maxWord := by
  rw [word, wordOfChars_eq_ok_iff]
  constructor
  · intro h
    obtain ⟨digits, hne, hs, h⟩ := h
    have hdigits : ∀ c ∈ digits, c.isDigit = true := fun c hc =>
      isDigit_of_digitValue?_ten (exists_digitValue?_of_extend h c hc).choose_spec
    rw [extend_decimal (Nat.zero_le _) hdigits] at h
    split at h
    · rename_i hle
      obtain rfl := Except.ok.inj h
      exact ⟨⟨digits, hne, hdigits, hs, rfl⟩, hle⟩
    · simp at h
  · intro h
    obtain ⟨⟨digits, hne, hdigits, hs, rfl⟩, hle⟩ := h
    exact ⟨digits, hne, hs, by rw [extend_decimal (Nat.zero_le _) hdigits, if_pos hle]⟩

/-! Sums -/

theorem saturatingAdd_min (a b : Nat) : saturatingAdd (min a maxWord) b = min (a + b) maxWord := by
  unfold saturatingAdd
  omega

/-- Stopping at every step is the same as stopping at the end. -/
theorem foldl_saturatingAdd {α : Type} (f : α → Nat) (l : List α) :
    l.foldl (fun sum a => saturatingAdd sum (f a)) 0 = min (l.map f).sum maxWord := by
  induction l using List.reverseRecOn with
  | nil => rfl
  | append_singleton l a ih =>
    rw [List.foldl_append, List.foldl_cons, List.foldl_nil, ih, saturatingAdd_min, List.map_append,
      List.map_singleton, List.sum_append, List.sum_singleton]

/-- A sum that stops at the largest word may add parts that have stopped there themselves. -/
theorem min_sum_min {α : Type} (f : α → Nat) (l : List α) :
    min (l.map fun a => min (f a) maxWord).sum maxWord = min (l.map f).sum maxWord := by
  induction l with
  | nil => rfl
  | cons a l ih =>
    rw [List.map_cons, List.sum_cons, List.map_cons, List.sum_cons]
    omega

end DecompTracker.Text
