import DecompTracker.Text.Bytes
import Mathlib.Data.List.Basic

/-! UTF-8 bytes. A byte of an ASCII digit occurs only where the digit does, and a text whose bytes
come first stands at the front itself, so parts of a text can be told from its bytes. -/
namespace DecompTracker.Text

def bytes (cs : List Char) : List UInt8 := cs.flatMap String.utf8EncodeChar

@[simp] theorem bytes_nil : bytes [] = [] := rfl

@[simp] theorem bytes_cons (c : Char) (cs : List Char) :
    bytes (c :: cs) = String.utf8EncodeChar c ++ bytes cs := rfl

@[simp] theorem bytes_append (cs ds : List Char) : bytes (cs ++ ds) = bytes cs ++ bytes ds :=
  List.flatMap_append

/-- These are the bytes that a string is stored as. -/
theorem toList_toByteArray (s : String) : s.toByteArray.data.toList = bytes s.toList := by
  rw [← String.ofList_toList (s := s), String.toByteArray_ofList, String.toList_ofList,
    List.utf8Encode, List.data_toByteArray]
  rfl

theorem length_bytes (cs : List Char) : (bytes cs).length = byteLength cs := by
  induction cs with
  | nil => rfl
  | cons c cs ih => simp [ih]

theorem byteLength_toList (s : String) : byteLength s.toList = s.utf8ByteSize := by
  rw [← length_bytes, ← toList_toByteArray, Array.length_toList]
  rfl

/-! Digits -/

/-- The bytes of the ten ASCII digits. -/
def IsDigitByte (b : UInt8) : Prop := 48 ≤ b.toNat ∧ b.toNat ≤ 57

instance (b : UInt8) : Decidable (IsDigitByte b) :=
  inferInstanceAs (Decidable (48 ≤ b.toNat ∧ b.toNat ≤ 57))

theorem isDigit_iff_toNat {c : Char} : c.isDigit = true ↔ 48 ≤ c.toNat ∧ c.toNat ≤ 57 := by
  simp [Char.isDigit, UInt32.le_iff_toNat_le]

theorem utf8EncodeChar_of_isDigit {c : Char} (hc : c.isDigit = true) :
    String.utf8EncodeChar c = [UInt8.ofNat c.toNat] := by
  have h := isDigit_iff_toNat.mp hc
  have hle : c.val.toNat ≤ 127 := Nat.le_trans h.2 (by decide)
  rw [String.utf8EncodeChar, if_pos hle]
  rfl

theorem utf8Size_of_isDigit {c : Char} (hc : c.isDigit = true) : c.utf8Size = 1 := by
  rw [← String.length_utf8EncodeChar, utf8EncodeChar_of_isDigit hc]
  rfl

theorem isDigitByte_ofNat {c : Char} (hc : c.isDigit = true) :
    IsDigitByte (UInt8.ofNat c.toNat) := by
  have h := isDigit_iff_toNat.mp hc
  simp only [IsDigitByte, UInt8.toNat_ofNat']
  omega

/-- Of all characters only the digits are written with such bytes. -/
theorem isDigit_of_isDigitByte {c : Char} {b : UInt8} (hb : b ∈ String.utf8EncodeChar c)
    (h : IsDigitByte b) : c.isDigit = true := by
  rw [String.utf8EncodeChar] at hb
  rw [isDigit_iff_toNat, Char.toNat]
  simp only [IsDigitByte] at h
  split at hb
  · obtain rfl := List.mem_singleton.mp hb
    rw [UInt8.toNat_ofNat'] at h
    omega
  · -- All bytes of longer characters are at least 128.
    have hlarge : 128 ≤ b.toNat := by
      split at hb
      · simp only [List.mem_cons, List.not_mem_nil, or_false] at hb
        rcases hb with rfl | rfl <;> rw [UInt8.toNat_ofNat'] <;> omega
      · split at hb
        · simp only [List.mem_cons, List.not_mem_nil, or_false] at hb
          rcases hb with rfl | rfl | rfl <;> rw [UInt8.toNat_ofNat'] <;> omega
        · simp only [List.mem_cons, List.not_mem_nil, or_false] at hb
          rcases hb with rfl | rfl | rfl | rfl <;> rw [UInt8.toNat_ofNat'] <;> omega
    omega

theorem forall_not_isDigitByte {cs : List Char} (h : ∀ c ∈ cs, c.isDigit = false) :
    ∀ b ∈ bytes cs, ¬ IsDigitByte b := by
  intro b hb hdigit
  obtain ⟨c, hc, hbc⟩ := List.mem_flatMap.mp hb
  have hd := isDigit_of_isDigitByte hbc hdigit
  rw [h c hc] at hd
  cases hd

theorem forall_isDigitByte {cs : List Char} (h : ∀ c ∈ cs, c.isDigit = true) :
    ∀ b ∈ bytes cs, IsDigitByte b := by
  intro b hb
  obtain ⟨c, hc, hbc⟩ := List.mem_flatMap.mp hb
  rw [utf8EncodeChar_of_isDigit (h c hc), List.mem_singleton] at hbc
  exact hbc ▸ isDigitByte_ofNat (h c hc)

def StartsWithDigit (bs : List UInt8) : Prop := ∃ b ∈ bs.head?, IsDigitByte b

theorem StartsWithDigit.isDigitByte {b : UInt8} {bs : List UInt8} (h : StartsWithDigit bs)
    (hb : b ∈ bs.head?) : IsDigitByte b := by
  obtain ⟨d, hd, hdigit⟩ := h
  obtain rfl := Option.mem_unique hb hd
  exact hdigit

@[simp] theorem startsWithDigit_utf8EncodeChar_append {c : Char} {bs : List UInt8} :
    StartsWithDigit (String.utf8EncodeChar c ++ bs) ↔ c.isDigit = true := by
  have hne : String.utf8EncodeChar c ≠ [] := String.utf8EncodeChar_ne_nil
  obtain ⟨b, ds, hb⟩ := List.exists_cons_of_ne_nil hne
  have hmem : b ∈ String.utf8EncodeChar c := by simp [hb]
  simp only [StartsWithDigit, hb, List.cons_append, List.head?_cons, Option.mem_some_iff,
    exists_eq_left']
  constructor
  · exact isDigit_of_isDigitByte hmem
  · intro hd
    rw [utf8EncodeChar_of_isDigit hd, List.cons.injEq] at hb
    exact hb.1 ▸ isDigitByte_ofNat hd

theorem startsWithDigit_bytes {cs : List Char} :
    StartsWithDigit (bytes cs) ↔ ∃ c ∈ cs.head?, c.isDigit = true := by
  cases cs with
  | nil => simp [StartsWithDigit]
  | cons c cs => simp

/-! Parts of a text -/

theorem eq_of_utf8EncodeChar_append {c d : Char} {bs ds : List UInt8}
    (h : String.utf8EncodeChar c ++ bs = String.utf8EncodeChar d ++ ds) : c = d ∧ bs = ds := by
  have hc : c = d := by
    have hfront := congrArg (fun l => (List.toByteArray l).utf8DecodeChar? 0) h
    simp only [List.toByteArray_append] at hfront
    rw [ByteArray.utf8DecodeChar?_utf8EncodeChar_append,
      ByteArray.utf8DecodeChar?_utf8EncodeChar_append] at hfront
    exact Option.some.inj hfront
  subst hc
  exact ⟨rfl, List.append_cancel_left h⟩

/-- A text whose bytes come first stands first itself. -/
theorem exists_of_bytes_eq_append {cs ds : List Char} {bs : List UInt8}
    (h : bytes cs = bytes ds ++ bs) : ∃ es, cs = ds ++ es ∧ bs = bytes es := by
  induction ds generalizing cs with
  | nil => exact ⟨cs, rfl, h.symm⟩
  | cons d ds ih =>
    cases cs with
    | nil =>
      have hne : String.utf8EncodeChar d ≠ [] := String.utf8EncodeChar_ne_nil
      simp [hne] at h
    | cons c cs =>
      rw [bytes_cons, bytes_cons, List.append_assoc] at h
      obtain ⟨rfl, hrest⟩ := eq_of_utf8EncodeChar_append h
      obtain ⟨es, rfl, hbs⟩ := ih hrest
      exact ⟨es, rfl, hbs⟩

theorem bytes_injective {cs ds : List Char} (h : bytes cs = bytes ds) : cs = ds := by
  have h' : bytes cs = bytes ds ++ [] := by rw [h, List.append_nil]
  obtain ⟨es, rfl, hes⟩ := exists_of_bytes_eq_append h'
  have hnil : es = [] := by
    cases es with
    | nil => rfl
    | cons e es =>
      have hne : String.utf8EncodeChar e ≠ [] := String.utf8EncodeChar_ne_nil
      simp [hne] at hes
  rw [hnil, List.append_nil]

end DecompTracker.Text
