import DecompTracker.Json.Literal
import DecompTracker.Proofs.Text.Numeral

/-! Literals that are written and read again. A written string is cut off at its closing quote and
stands for the text it was made from; a written number is cut off at the first character that cannot
go on with it. -/
namespace DecompTracker.Json

/-! Strings -/

/-- The ways in which a character stands in a written literal. -/
inductive Spells (c : Char) : List Char → Prop where
  | short {e : Char} (hunit : e ≠ 'u') (h : shortEscape? e = some c) : Spells c ['\\', e]
  | byUnit {a b : Char} (h : unit? '0' '0' a b = some c.toNat) (hcontrol : c.toNat < 0x20) :
    Spells c ['\\', 'u', '0', '0', a, b]
  | plain (hquote : c ≠ '"') (hbackslash : c ≠ '\\') (hcontrol : ¬ c.toNat < 0x20) : Spells c [c]

theorem hexValue?_digitChar {n : Nat} (hn : n < 16) : Text.hexValue? n.digitChar = some n := by
  have hall : ∀ d < 16, Text.hexValue? (Nat.digitChar d) = some d := by decide
  exact hall n hn

theorem spells_escapeChar (c : Char) : Spells c (escapeChar c) := by
  unfold escapeChar
  split
  case h_8 hquote hbackslash _ _ _ _ _ =>
    split
    · rename_i hcontrol
      refine .byUnit ?_ hcontrol
      have hzero : Text.hexValue? '0' = some 0 := rfl
      rw [unit?, hzero, hexValue?_digitChar (by omega), hexValue?_digitChar (by omega)]
      simp only [Option.pure_def, Option.bind_eq_bind, Option.bind_some]
      congr 1
      omega
    · rename_i hcontrol
      exact .plain hquote hbackslash hcontrol
  all_goals exact .short (by decide) rfl

variable {c : Char} {cell rest : List Char}

/-- No cell holds the closing quote. -/
theorem Spells.literal?_append (h : Spells c cell) (rest : List Char) :
    literal? (cell ++ rest) = (literal? rest).map fun p => (cell ++ p.1, p.2) := by
  cases h with
  | @short e hunit h =>
    have hknown : (shortEscape? e).isSome = true := by rw [h]; rfl
    rw [List.cons_append, List.cons_append, List.nil_append, literal?, if_pos hknown]
    · rfl
    · simp [hunit]
  | @byUnit a b h =>
    have hknown : (unit? '0' '0' a b).isSome = true := by rw [h]; rfl
    simp only [List.cons_append, List.nil_append]
    rw [literal?, if_pos hknown]
  | plain hquote hbackslash hcontrol =>
    have hplain : ¬ (c = '\\' ∨ c.toNat < 0x20) := not_or.mpr ⟨hbackslash, hcontrol⟩
    rw [List.cons_append, List.nil_append, literal?, if_neg hplain]
    · rfl
    all_goals simp [hquote, hbackslash]

theorem Spells.unescape?_append (h : Spells c cell) (rest : List Char) :
    unescape? (cell ++ rest) = (unescape? rest).map (c :: ·) := by
  cases h with
  | @short e hunit h =>
    rw [List.cons_append, List.cons_append, List.nil_append, unescape?, h]
    · rfl
    · simp [hunit]
  | @byUnit a b h hcontrol =>
    have hlow : isLowSurrogate c.toNat = false := by simp [isLowSurrogate]; omega
    have hhigh : isHighSurrogate c.toNat = false := by simp [isHighSurrogate]; omega
    simp only [List.cons_append, List.nil_append]
    rw [unescape?, h]
    simp [hlow, hhigh, Char.ofNat_toNat]
  | plain hquote hbackslash =>
    rw [List.cons_append, List.nil_append, unescape?]
    all_goals simp [hbackslash]

/-- The literal of a text ends at the quote that closes it. -/
theorem literal?_escape (cs rest : List Char) :
    literal? (escape cs ++ '"' :: rest) = some (escape cs, rest) := by
  induction cs with
  | nil => rfl
  | cons c cs ih =>
    rw [escape, List.flatMap_cons, ← escape, List.append_assoc,
      (spells_escapeChar c).literal?_append, ih, Option.map_some]

theorem unescape?_escape (cs : List Char) : unescape? (escape cs) = some cs := by
  induction cs with
  | nil => rfl
  | cons c cs ih =>
    rw [escape, List.flatMap_cons, ← escape, (spells_escapeChar c).unescape?_append, ih,
      Option.map_some]

theorem stringOfLiteral_escape (s : String) : stringOfLiteral (escape s.toList) = .text s := by
  simp [stringOfLiteral, unescape?_escape]

/-! Numbers -/

/-- A text that does not go on with a number. -/
def EndsNumber (rest : List Char) : Prop :=
  ∀ c ∈ rest.head?, c.isDigit = false ∧ c ≠ '.' ∧ c ≠ 'e' ∧ c ≠ 'E'

theorem head?_toDigits_ne_zero {n : Nat} (hn : 0 < n) : (Nat.toDigits 10 n).head? ≠ some '0' := by
  induction n using Nat.strongRecOn with
  | _ n ih =>
    by_cases hlt : n < 10
    · rw [Nat.toDigits_of_lt_base hlt]
      simp
      omega
    · have hfront := ih (n / 10) (by omega) (by omega)
      rw [Nat.toDigits_of_base_le (by decide) (by omega),
        List.head?_append_of_ne_nil _ Nat.toDigits_ne_nil]
      exact hfront

theorem isDigit_of_mem_decimal {n : Nat} {c : Char} (hc : c ∈ decimal n) : c.isDigit = true :=
  Nat.isDigit_of_mem_toDigits (by decide) (by decide) hc

theorem head?_decimal_append (n : Nat) (rest : List Char) :
    (decimal n ++ rest).head? = (decimal n).head? :=
  List.head?_append_of_ne_nil _ Nat.toDigits_ne_nil

theorem whole?_decimal (n : Nat) (h : EndsNumber rest) :
    whole? (decimal n ++ rest) = some (decimal n, rest) := by
  have hboundary : ∀ c ∈ rest.head?, ¬ c.isDigit = true := fun c hc => by simp [(h c hc).1]
  obtain ⟨htake, hdrop⟩ := Text.takeWhile_dropWhile_of_run
    (fun c (hc : c ∈ decimal n) => isDigit_of_mem_decimal hc) hboundary
  rcases Nat.eq_zero_or_pos n with rfl | hn
  · rfl
  · have hhead : ∀ tail, decimal n ++ rest ≠ '0' :: tail := by
      intro tail heq
      have hzero : (decimal n).head? ≠ some '0' := head?_toDigits_ne_zero hn
      rw [← head?_decimal_append n rest, heq] at hzero
      exact hzero rfl
    have hfilled : (decimal n).isEmpty = false := by simp [decimal, Nat.toDigits_ne_nil]
    rw [whole?]
    · simp [htake, hdrop, hfilled]
    · exact hhead

theorem fraction?_of_endsNumber (h : EndsNumber rest) : fraction? rest = some ([], rest) := by
  cases rest with
  | nil => rfl
  | cons c cs =>
    rw [fraction?]
    simp [(h c rfl).2.1]

theorem exponent?_of_endsNumber (h : EndsNumber rest) : exponent? rest = some ([], rest) := by
  cases rest with
  | nil => rfl
  | cons c cs =>
    have hc : ¬ (c = 'e' ∨ c = 'E') := not_or.mpr (h c rfl).2.2
    rw [exponent?, if_neg hc]

/-- The digits of a machine word are read as that word. -/
theorem number?_decimal {n : Nat} (hn : n ≤ Text.maxWord) (h : EndsNumber rest) :
    number? (decimal n ++ rest) = some (.nat n, rest) := by
  have hminus : ∀ tail, decimal n ++ rest ≠ '-' :: tail := by
    intro tail heq
    have hhead : (decimal n).head? = some '-' := by
      rw [← head?_decimal_append n rest, heq]
      rfl
    exact absurd (isDigit_of_mem_decimal (List.mem_of_mem_head? hhead)) (by decide)
  have hword : Text.wordOfChars 10 (decimal n) = .ok n := Text.wordOfChars_toDigits hn
  rw [number?]
  · simp [whole?_decimal n h, fraction?_of_endsNumber h, exponent?_of_endsNumber h, hword]
  · exact hminus

end DecompTracker.Json
