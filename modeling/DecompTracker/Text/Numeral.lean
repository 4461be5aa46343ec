/-! Unsigned 64-bit numbers written in some radix up to sixteen. A numeral is an optional plus sign
and at least one digit; the first character that spoils it, in reading order, decides the error. -/
namespace DecompTracker.Text

/-- The largest number that fits in a machine word. -/
def maxWord : Nat := 0xFFFFFFFFFFFFFFFF

inductive NumeralError where
  | empty
  | invalidDigit
  | tooLarge
  deriving DecidableEq, Repr

def NumeralError.message : NumeralError → String
  | .empty => "cannot parse integer from empty string"
  | .invalidDigit => "invalid digit found in string"
  | .tooLarge => "number too large to fit in target type"

/-- The value of a hexadecimal digit of either case. -/
def hexValue? (c : Char) : Option Nat :=
  if '0' ≤ c ∧ c ≤ '9' then some (c.toNat - '0'.toNat)
  else if 'a' ≤ c ∧ c ≤ 'f' then some (c.toNat - 'a'.toNat + 10)
  else if 'A' ≤ c ∧ c ≤ 'F' then some (c.toNat - 'A'.toNat + 10)
  else none

def digitValue? (radix : Nat) (c : Char) : Option Nat :=
  (hexValue? c).filter (· < radix)

theorem digitValue?_lt {radix : Nat} {c : Char} {d : Nat} (h : digitValue? radix c = some d) :
    d < radix := by
  simpa using (Option.filter_eq_some_iff.mp h).2

/-- Reads digits onto the value `n` of the ones before them. -/
def extend (radix n : Nat) : List Char → Except NumeralError Nat
  | [] => .ok n
  | c :: cs =>
    match digitValue? radix c with
    | none => .error .invalidDigit
    | some d =>
      if n * radix + d ≤ maxWord then extend radix (n * radix + d) cs else .error .tooLarge

theorem extend_le_maxWord {radix n m : Nat} {cs : List Char} (hn : n ≤ maxWord)
    (h : extend radix n cs = .ok m) : m ≤ maxWord := by
  induction cs generalizing n with
  | nil => simp only [extend, Except.ok.injEq] at h; omega
  | cons c cs ih =>
    rw [extend] at h
    split at h
    · simp at h
    · split at h
      · exact ih (by assumption) h
      · simp at h

def wordOfChars (radix : Nat) : List Char → Except NumeralError Nat
  | [] => .error .empty
  | ['+'] => .error .invalidDigit
  | '+' :: digits => extend radix 0 digits
  | digits => extend radix 0 digits

def word (radix : Nat) (s : String) : Except NumeralError Nat := wordOfChars radix s.toList

/-- Lower-case hexadecimal digits, none of them a leading zero. -/
def hexadecimal (n : Nat) : String := String.ofList (Nat.toDigits 16 n)

/-- Sums of machine words stop at the largest one. -/
def saturatingAdd (a b : Nat) : Nat := min (a + b) maxWord

end DecompTracker.Text
