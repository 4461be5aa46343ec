import DecompTracker.Proofs.Text.Utf8
import Mathlib.Algebra.Group.Nat.Defs
import Mathlib.Tactic.SplitIfs

/-! The order of texts by their bytes. Of two characters the one with the larger code point has more
bytes or, with as many, the larger number in base 64. Texts therefore compare by their UTF-8 bytes
as they do by their characters. -/
namespace DecompTracker.Text

/-- How many bytes follow the first one of a character. -/
def continuationCount (v : Nat) : Nat :=
  if v ≤ 0x7f then 0 else if v ≤ 0x7ff then 1 else if v ≤ 0xffff then 2 else 3

/-- What the first byte says about the number of bytes. -/
def marker : Nat → Nat
  | 0 => 0
  | 1 => 0xc0
  | 2 => 0xe0
  | _ => 0xf0

/-- The first byte also has the digits that do not fit in the others. -/
def leadByte (v : Nat) : Nat :=
  marker (continuationCount v) + v / 64 ^ continuationCount v

/-- The `count` lowest digits in base 64, as bytes that continue a character. -/
def continuation (v : Nat) : Nat → List UInt8
  | 0 => []
  | count + 1 => UInt8.ofNat (v / 64 ^ count % 64 + 0x80) :: continuation v count

theorem toNat_lt_of_char (c : Char) : c.toNat < 0x110000 := by
  rcases c.valid with hc | ⟨-, hc⟩ <;> simp only [Char.toNat] <;> omega

theorem utf8EncodeChar_eq (c : Char) : String.utf8EncodeChar c =
    UInt8.ofNat (leadByte c.toNat) :: continuation c.toNat (continuationCount c.toNat) := by
  have hc := toNat_lt_of_char c
  have hv : c.val.toNat = c.toNat := rfl
  simp only [String.utf8EncodeChar, hv, leadByte, continuationCount]
  generalize c.toNat = v at hc
  split_ifs
  · simp [marker, continuation]
  · have hlead : v / 64 % 0x20 + 0xc0 = 0xc0 + v / 64 := by omega
    simp [marker, continuation, hlead]
  · have hlead : v / 4096 % 0x10 + 0xe0 = 0xe0 + v / 4096 := by omega
    simp [marker, continuation, hlead]
  · have hlead : v / 262144 % 0x08 + 0xf0 = 0xf0 + v / 262144 := by omega
    simp [marker, continuation, hlead]

theorem leadByte_lt {v : Nat} (h : v < 0x110000) : leadByte v < UInt8.size := by
  simp only [leadByte, continuationCount, UInt8.size]
  split_ifs <;> simp only [marker] <;> omega

/-- A larger code point has a larger first byte unless the two start alike. -/
theorem leadByte_lt_or_eq {v w : Nat} (h : v < w) (hw : w < 0x110000) :
    leadByte v < leadByte w ∨
      leadByte v = leadByte w ∧ continuationCount v = continuationCount w ∧
        v % 64 ^ continuationCount v < w % 64 ^ continuationCount w := by
  by_cases hcount : continuationCount v = continuationCount w
  · rw [leadByte, leadByte, hcount]
    have hdiv := Nat.div_le_div_right (c := 64 ^ continuationCount w) (Nat.le_of_lt h)
    have hv := Nat.div_add_mod v (64 ^ continuationCount w)
    have hw := Nat.div_add_mod w (64 ^ continuationCount w)
    rcases Nat.lt_or_eq_of_le hdiv with hlt | heq
    · exact .inl (by omega)
    · rw [heq] at hv ⊢
      exact .inr ⟨rfl, rfl, by omega⟩
  · left
    simp only [leadByte, continuationCount] at hcount ⊢
    split_ifs at hcount ⊢ <;> simp only [marker] <;> omega

theorem continuation_append_lt {v w count : Nat} (h : v % 64 ^ count < w % 64 ^ count)
    (bs ds : List UInt8) : continuation v count ++ bs < continuation w count ++ ds := by
  induction count with
  | zero => simp [Nat.mod_one] at h
  | succ count ih =>
    rw [Nat.mod_pow_succ, Nat.mod_pow_succ] at h
    rw [continuation, continuation, List.cons_append, List.cons_append, List.cons_lt_cons_iff]
    have hdigit (n : Nat) : n % 64 + 0x80 < UInt8.size := by
      rw [UInt8.size]
      omega
    rcases Nat.lt_trichotomy (v / 64 ^ count % 64) (w / 64 ^ count % 64) with hlt | heq | hgt
    · exact .inl ((UInt8.ofNat_lt_iff_lt (hdigit _) (hdigit _)).mpr (Nat.add_lt_add_right hlt _))
    · rw [heq] at h ⊢
      exact .inr ⟨rfl, ih (by omega)⟩
    · -- With a larger leading digit `v` would be the larger number.
      have hw := Nat.mod_lt w (Nat.pow_pos (n := count) (show 0 < 64 by decide))
      have hle := Nat.mul_le_mul_left (64 ^ count) hgt
      rw [Nat.mul_succ] at hle
      omega

theorem utf8EncodeChar_append_lt {c d : Char} (h : c < d) (bs ds : List UInt8) :
    String.utf8EncodeChar c ++ bs < String.utf8EncodeChar d ++ ds := by
  have hlt : c.toNat < d.toNat := UInt32.lt_iff_toNat_lt.mp h
  have hd := toNat_lt_of_char d
  rw [utf8EncodeChar_eq, utf8EncodeChar_eq, List.cons_append, List.cons_append,
    List.cons_lt_cons_iff]
  rcases leadByte_lt_or_eq hlt hd with hlead | ⟨hlead, hcount, hrest⟩
  · have hc := Nat.lt_trans hlt hd
    exact .inl ((UInt8.ofNat_lt_iff_lt (leadByte_lt hc) (leadByte_lt hd)).mpr hlead)
  · rw [hcount] at hrest ⊢
    exact .inr ⟨congrArg UInt8.ofNat hlead, continuation_append_lt hrest bs ds⟩

/-- Texts stand in the order of their bytes. -/
theorem bytes_lt_bytes {cs ds : List Char} (h : cs < ds) : bytes cs < bytes ds := by
  induction cs generalizing ds with
  | nil =>
    cases ds with
    | nil => simp at h
    | cons d ds =>
      rw [bytes_cons, utf8EncodeChar_eq]
      exact List.nil_lt_cons _ _
  | cons c cs ih =>
    cases ds with
    | nil => simp at h
    | cons d ds =>
      rw [bytes_cons, bytes_cons]
      rcases List.cons_lt_cons_iff.mp h with hcd | ⟨rfl, hcs⟩
      · exact utf8EncodeChar_append_lt hcd _ _
      · exact List.append_left_lt (ih hcs)

end DecompTracker.Text
