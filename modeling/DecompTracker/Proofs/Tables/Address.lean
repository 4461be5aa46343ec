import DecompTracker.Proofs.PairedLists
import DecompTracker.Proofs.Text.Lines
import DecompTracker.Proofs.Text.Numeral
import DecompTracker.Tables.Functions
import Mathlib.Data.Nat.Digits.Defs

/-! The texts that are read as addresses: hexadecimal digits of any number, with an optional mark and
an optional plus sign in front and blanks around them. Such a text stands for one number, which is
read when it is a machine word and refused as too large otherwise; no other text is read. -/
namespace DecompTracker

namespace Text

/-! Hexadecimal numerals -/

/-- A digit of either case. -/
def SpellsDigit (c : Char) (d : Nat) : Prop := d < 16 ∧ (c = d.digitChar ∨ c = d.digitChar.toUpper)

instance (c : Char) (d : Nat) : Decidable (SpellsDigit c d) := inferInstanceAs (Decidable (_ ∧ _))

/-- At least one digit, the most significant one first. -/
def IsHexadecimal (digits : List Char) (n : Nat) : Prop :=
  digits ≠ [] ∧ ∃ ds, List.Forall₂ SpellsDigit digits ds ∧ Nat.ofDigits 16 ds.reverse = n

theorem toNat_lt_of_hexValue? {c : Char} {d : Nat} (h : hexValue? c = some d) : c.toNat < 103 := by
  have hlast (last : Char) (hc : c ≤ last) (hlt : last.toNat < 103) : c.toNat < 103 :=
    Nat.lt_of_le_of_lt (UInt32.le_iff_toNat_le.mp hc) hlt
  unfold hexValue? at h
  split at h
  · exact hlast '9' (by tauto) (by decide)
  · split at h
    · exact hlast 'f' (by tauto) (by decide)
    · split at h
      · exact hlast 'F' (by tauto) (by decide)
      · simp at h

theorem digitValue?_sixteen_iff {c : Char} {d : Nat} :
    digitValue? 16 c = some d ↔ SpellsDigit c d := by
  constructor
  · intro h
    have hlt := toNat_lt_of_hexValue? (Option.filter_eq_some_iff.mp h).1
    have hall : ∀ n < 103, ∀ d ∈ digitValue? 16 (Char.ofNat n), SpellsDigit (Char.ofNat n) d := by
      decide
    have hc := hall c.toNat hlt d
    rw [Char.ofNat_toNat] at hc
    exact hc h
  · intro h
    obtain ⟨hd, hc⟩ := h
    have hall : ∀ d < 16, digitValue? 16 (Nat.digitChar d) = some d ∧
        digitValue? 16 (Nat.digitChar d).toUpper = some d := by decide
    rcases hc with rfl | rfl
    · exact (hall d hd).1
    · exact (hall d hd).2

/-- Digits are neither blank nor part of a sign or a mark, up to the zero in the mark. -/
theorem SpellsDigit.not_special {c : Char} {d : Nat} (h : SpellsDigit c d) :
    isBlank c = false ∧ c ≠ '+' ∧ c ≠ 'x' ∧ c ≠ 'X' := by
  obtain ⟨hd, hc⟩ := h
  have hall : ∀ d < 16, [Nat.digitChar d, (Nat.digitChar d).toUpper].all (fun c =>
      isBlank c = false ∧ c ≠ '+' ∧ c ≠ 'x' ∧ c ≠ 'X') = true := by decide
  exact of_decide_eq_true (List.all_eq_true.mp (hall d hd) c (by simpa using hc))

theorem IsHexadecimal.not_special {digits : List Char} {n : Nat} (h : IsHexadecimal digits n) :
    ∀ c ∈ digits, isBlank c = false ∧ c ≠ '+' ∧ c ≠ 'x' ∧ c ≠ 'X' := by
  intro c hc
  obtain ⟨-, ds, hds, -⟩ := h
  obtain ⟨d, -, hd⟩ := exists_of_forall₂ hds c hc
  exact hd.not_special

theorem foldl_digits (radix : Nat) (ds : List Nat) :
    ds.foldl (fun m d => m * radix + d) 0 = Nat.ofDigits radix ds.reverse := by
  rw [Nat.ofDigits_eq_foldr, List.foldr_reverse]
  simp [Nat.mul_comm, Nat.add_comm]

theorem extend_hexadecimal {digits : List Char} {n : Nat} (h : IsHexadecimal digits n) :
    extend 16 0 digits = if n ≤ maxWord then .ok n else .error .tooLarge := by
  obtain ⟨-, ds, hds, rfl⟩ := h
  have hvalues := hds.imp fun {_ _} => digitValue?_sixteen_iff.mpr
  rw [extend_of_digits (Nat.zero_le _) hvalues, foldl_digits]

theorem isHexadecimal_of_extend {digits : List Char} {n : Nat} (hne : digits ≠ [])
    (h : extend 16 0 digits = .ok n) : IsHexadecimal digits n := by
  have hdigits := exists_digitValue?_of_extend h
  have hspelled : List.Forall₂ SpellsDigit digits
      (digits.map fun c => (digitValue? 16 c).getD 0) := by
    refine List.forall₂_map_right_iff.mpr (List.forall₂_same.mpr fun c hc => ?_)
    obtain ⟨d, hd⟩ := hdigits c hc
    rw [hd, Option.getD_some]
    exact digitValue?_sixteen_iff.mp hd
  refine ⟨hne, _, hspelled, ?_⟩
  have hvalue := extend_hexadecimal ⟨hne, _, hspelled, rfl⟩
  rw [h] at hvalue
  split at hvalue
  · exact (Except.ok.inj hvalue).symm
  · cases hvalue

end Text

/-! Addresses -/

/-- What an address text is made of. -/
structure AddressParts where
  before : List Char
  mark : List Char
  sign : List Char
  digits : List Char
  after : List Char

/-- The parts make up the text and stand for the number. -/
structure AddressParts.Spell (parts : AddressParts) (text : String) (n : Nat) : Prop where
  text_eq :
    text.toList = parts.before ++ (parts.mark ++ (parts.sign ++ parts.digits)) ++ parts.after
  before : ∀ c ∈ parts.before, Text.isBlank c = true
  mark : parts.mark ∈ [[], ['0', 'x'], ['0', 'X']]
  sign : parts.sign ∈ [[], ['+']]
  digits : Text.IsHexadecimal parts.digits n
  after : ∀ c ∈ parts.after, Text.isBlank c = true

def SpellsAddress (text : String) (n : Nat) : Prop := ∃ parts : AddressParts, parts.Spell text n

/-- A mark is passed over where there is one; digits do not look like a mark. -/
theorem dropHexMark_append {mark rest : List Char} (hmark : mark ∈ [[], ['0', 'x'], ['0', 'X']])
    (hrest : ∀ c ∈ rest, c ≠ 'x' ∧ c ≠ 'X') : dropHexMark (mark ++ rest) = rest := by
  simp only [List.mem_cons, List.not_mem_nil, or_false] at hmark
  rcases hmark with rfl | rfl | rfl
  · rw [List.nil_append]
    unfold dropHexMark
    split
    · exact absurd rfl (hrest 'x' (by simp)).1
    · exact absurd rfl (hrest 'X' (by simp)).2
    · rfl
  · rfl
  · rfl

theorem exists_eq_append_dropHexMark (cs : List Char) :
    ∃ mark ∈ [[], ['0', 'x'], ['0', 'X']], cs = mark ++ dropHexMark cs := by
  unfold dropHexMark
  split
  · exact ⟨['0', 'x'], by simp, rfl⟩
  · exact ⟨['0', 'X'], by simp, rfl⟩
  · exact ⟨[], by simp, rfl⟩

namespace AddressParts

variable {parts : AddressParts} {text : String} {n : Nat}

theorem Spell.sign_eq (h : parts.Spell text n) : parts.sign = [] ∨ parts.sign = ['+'] := by
  simpa using h.sign

theorem Spell.not_special (h : parts.Spell text n) : ∀ c ∈ parts.sign ++ parts.digits,
    Text.isBlank c = false ∧ c ≠ 'x' ∧ c ≠ 'X' := by
  intro c hc
  rcases List.mem_append.mp hc with hc | hc
  · rcases h.sign_eq with hsign | hsign
    · simp [hsign] at hc
    · obtain rfl : c = '+' := by simpa [hsign] using hc
      decide
  · obtain ⟨hblank, -, hx, hX⟩ := h.digits.not_special c hc
    exact ⟨hblank, hx, hX⟩

theorem Spell.trimChars_eq (h : parts.Spell text n) :
    Text.trimChars text.toList = parts.mark ++ (parts.sign ++ parts.digits) := by
  rw [h.text_eq, Text.trimChars_of_blank_around h.before h.after]
  refine Text.trimChars_eq_self fun c hc => ?_
  rcases List.mem_append.mp hc with hc | hc
  · have hmarks : ∀ mark ∈ [[], ['0', 'x'], ['0', 'X']], mark.all (!Text.isBlank ·) = true := by
      decide
    simpa using List.all_eq_true.mp (hmarks _ h.mark) c hc
  · exact (h.not_special c hc).1

theorem Spell.wordOfChars_eq (h : parts.Spell text n) :
    Text.wordOfChars 16 (parts.sign ++ parts.digits) =
      if n ≤ Text.maxWord then .ok n else .error .tooLarge := by
  have hplus : parts.digits.head? ≠ some '+' := fun hplus =>
    (h.digits.not_special '+' (List.mem_of_head? hplus)).2.1 rfl
  have hsign : parts.sign ++ parts.digits = parts.digits ∨
      parts.sign ++ parts.digits = '+' :: parts.digits := by
    rcases h.sign_eq with hsign | hsign
    · exact .inl (by rw [hsign, List.nil_append])
    · exact .inr (by rw [hsign, List.singleton_append])
  rw [Text.wordOfChars_of_numeral h.digits.1 hplus hsign, Text.extend_hexadecimal h.digits]

end AddressParts

theorem SpellsAddress.parseAddress_eq {text : String} {n : Nat} (h : SpellsAddress text n) :
    parseAddress text = if n < 2 ^ 64 then .ok n else .error ⟨text, .tooLarge⟩ := by
  obtain ⟨parts, h⟩ := h
  have hmark : dropHexMark (Text.trimChars text.toList) = parts.sign ++ parts.digits := by
    rw [h.trimChars_eq]
    exact dropHexMark_append h.mark fun c hc => (h.not_special c hc).2
  have hword : n ≤ Text.maxWord ↔ n < 2 ^ 64 := Nat.lt_succ_iff.symm
  rw [parseAddress, hmark, h.wordOfChars_eq]
  by_cases hn : n ≤ Text.maxWord
  · rw [if_pos hn, if_pos (hword.mp hn)]
  · rw [if_neg hn, if_neg (hword.not.mp hn)]

/-- Whatever is read is spelled by the text and fits in a machine word. -/
theorem spellsAddress_of_parseAddress {text : String} {n : Nat} (h : parseAddress text = .ok n) :
    SpellsAddress text n ∧ n < 2 ^ 64 := by
  unfold parseAddress at h
  split at h
  · rename_i m hm
    obtain rfl := Except.ok.inj h
    obtain ⟨digits, hne, hcs, hextend⟩ := Text.wordOfChars_eq_ok_iff.mp hm
    have hword : m ≤ Text.maxWord := Text.extend_le_maxWord (Nat.zero_le _) hextend
    have hdigits := Text.isHexadecimal_of_extend hne hextend
    obtain ⟨sign, hsign, hcs⟩ : ∃ sign ∈ [[], ['+']],
        dropHexMark (Text.trimChars text.toList) = sign ++ digits := by
      rcases hcs with hcs | hcs
      · exact ⟨[], by simp, hcs⟩
      · exact ⟨['+'], by simp, hcs⟩
    obtain ⟨mark, hmark, htrim⟩ := exists_eq_append_dropHexMark (Text.trimChars text.toList)
    obtain ⟨before, after, hbefore, hafter, htext⟩ := Text.exists_eq_append_trimChars text.toList
    rw [hcs] at htrim
    rw [htrim] at htext
    exact ⟨⟨⟨before, mark, sign, digits, after⟩, htext, hbefore, hmark, hsign, hdigits, hafter⟩,
      Nat.lt_succ_of_le hword⟩
  · cases h

/-- An address is read as the number below `2 ^ 64` that its text spells. A text that spells a larger
one is refused as too large, and every other text is refused as well. -/
theorem parseAddress_outcome (text : String) :
    (∀ n, parseAddress text = .ok n ↔ SpellsAddress text n ∧ n < 2 ^ 64) ∧
      (∀ n, SpellsAddress text n → 2 ^ 64 ≤ n → parseAddress text = .error ⟨text, .tooLarge⟩) ∧
        ((¬ ∃ n, SpellsAddress text n ∧ n < 2 ^ 64) →
          ∃ cause, parseAddress text = .error ⟨text, cause⟩) := by
  have hiff (n : Nat) : parseAddress text = .ok n ↔ SpellsAddress text n ∧ n < 2 ^ 64 := by
    constructor
    · exact spellsAddress_of_parseAddress
    · intro h
      rw [h.1.parseAddress_eq, if_pos h.2]
  refine ⟨hiff, fun n hspelled hn => ?_, fun hnone => ?_⟩
  · rw [hspelled.parseAddress_eq, if_neg (Nat.not_lt.mpr hn)]
  · cases h : parseAddress text with
    | ok n => exact absurd ⟨n, (hiff n).mp h⟩ hnone
    | error e =>
      unfold parseAddress at h
      split at h
      · cases h
      · exact ⟨_, h.symm⟩

example : parseAddress "0x0x1" = .error ⟨"0x0x1", .invalidDigit⟩ := by decide

/-- More leading zeros than a machine word has digits. -/
def longAddress : AddressParts :=
  ⟨['\u00a0'], ['0', 'X'], ['+'], List.replicate 20 '0' ++ ['7', 'f', 'A'], ['\t', ' ']⟩

/-- One digit too many. -/
def largeAddress : AddressParts := ⟨[], ['0', 'x'], [], '1' :: List.replicate 16 '0', []⟩

theorem parseAddress_outcome_longAddress :
    SpellsAddress "\u00a00X+000000000000000000007fA\t " 0x7fa ∧
      parseAddress "\u00a00X+000000000000000000007fA\t " = .ok 0x7fa ∧
      SpellsAddress "0x10000000000000000" (2 ^ 64) ∧
      parseAddress "0x10000000000000000" = .error ⟨"0x10000000000000000", .tooLarge⟩ ∧
      (¬ ∃ n, SpellsAddress "0x+" n ∧ n < 2 ^ 64) ∧
      ∃ cause, parseAddress "0x+" = .error ⟨"0x+", cause⟩ := by
  have hlong : SpellsAddress "\u00a00X+000000000000000000007fA\t " 0x7fa :=
    ⟨longAddress, by decide, List.all_eq_true.mp (by decide), by decide, by decide,
      ⟨by decide, List.replicate 20 0 ++ [7, 15, 10], by decide, by decide⟩,
      List.all_eq_true.mp (by decide)⟩
  have hlarge : SpellsAddress "0x10000000000000000" (2 ^ 64) :=
    ⟨largeAddress, by decide, List.all_eq_true.mp (by decide), by decide, by decide,
      ⟨by decide, 1 :: List.replicate 16 0, by decide, by decide⟩,
      List.all_eq_true.mp (by decide)⟩
  have hsign : ¬ ∃ n, SpellsAddress "0x+" n ∧ n < 2 ^ 64 := by
    intro ⟨n, hn⟩
    have hok := ((parseAddress_outcome _).1 n).mpr hn
    rw [show parseAddress "0x+" = .error ⟨"0x+", .invalidDigit⟩ by decide] at hok
    cases hok
  exact ⟨hlong, ((parseAddress_outcome _).1 _).mpr ⟨hlong, by decide⟩, hlarge,
    (parseAddress_outcome _).2.1 _ hlarge (by decide), hsign, (parseAddress_outcome _).2.2 hsign⟩

end DecompTracker
