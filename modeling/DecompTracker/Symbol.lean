import DecompTracker.QualifiedName
import DecompTracker.Text.Bytes
import DecompTracker.Text.Numeral

/-! Names inside mangled symbols. A mangled symbol starts with `_Z`; from its first digit on it is a
row of segments, each a decimal byte count followed by that many bytes, or a marker that repeats
the segment before it for a constructor or destructor. Reading stops at the first thing that is
neither, and what was read until then is the name. -/
namespace DecompTracker.Symbol

def isMangledChars : List Char → Bool
  | '_' :: 'Z' :: _ => true
  | _ => false

/-- Whether a symbol carries the mangling marker. -/
def isMangled (raw : String) : Bool := isMangledChars raw.toList

/-- A segment at the front of a text, the bytes it was read from, and what follows them. -/
structure Piece where
  segment : List Char
  size : Nat
  rest : List Char

/-- `C` or `D` right before a digit. -/
def marker? : List Char → Option (Char × List Char)
  | m :: d :: rest => if (m = 'C' ∨ m = 'D') ∧ d.isDigit then some (m, rest) else none
  | _ => none

/-- A byte count and that many bytes. Neither the count nor the place where the segment ends,
counted from the start of the symbol, may exceed a machine word. -/
def counted? (offset : Nat) (cs : List Char) : Option Piece :=
  let digits := cs.takeWhile Char.isDigit
  if digits = [] then none
  else
    match Text.extend 10 0 digits with
    | .error _ => none
    | .ok count =>
      if Text.maxWord < offset + (digits.length + count) then none
      else (Text.takeBytes count (cs.dropWhile Char.isDigit)).map fun (segment, rest) =>
        { segment, size := digits.length + count, rest }

/-- The segment read at byte `offset`, after `previous?`. A marker has nothing to repeat before
the first segment. -/
def piece? (previous? : Option (List Char)) (offset : Nat) (cs : List Char) : Option Piece :=
  match marker? cs with
  | some (m, rest) =>
    previous?.map fun s => { segment := if m = 'C' then s else '~' :: s, size := 2, rest }
  | none => counted? offset cs

theorem length_rest_of_counted? {offset : Nat} {cs : List Char} {p : Piece}
    (h : counted? offset cs = some p) : p.rest.length < cs.length := by
  simp only [counted?] at h
  split at h
  · simp at h
  · rename_i hd
    split at h
    · simp at h
    · split at h
      · simp at h
      · obtain ⟨⟨s, r⟩, ht, rfl⟩ := Option.map_eq_some_iff.mp h
        have hr := (Text.takeBytes_eq_some_iff.mp ht).1
        have hl := congrArg List.length
          (List.takeWhile_append_dropWhile (p := Char.isDigit) (l := cs))
        have := List.length_pos_iff.mpr hd
        rw [hr] at hl
        simp only [List.length_append] at hl
        show r.length < cs.length
        omega

theorem length_rest_of_piece? {previous? : Option (List Char)} {offset : Nat} {cs : List Char}
    {p : Piece} (h : piece? previous? offset cs = some p) : p.rest.length < cs.length := by
  rw [piece?] at h
  split at h
  · rename_i m rest hm
    obtain ⟨s, -, rfl⟩ := Option.map_eq_some_iff.mp h
    rw [marker?.eq_def] at hm
    split at hm
    · split at hm
      · simp only [Option.some.injEq, Prod.mk.injEq] at hm
        show rest.length < _
        rw [← hm.2, List.length_cons, List.length_cons]
        omega
      · simp at hm
    · simp at hm
  · exact length_rest_of_counted? h

/-- The segments from byte `offset` on. -/
def segmentsFrom (previous? : Option (List Char)) (offset : Nat) (cs : List Char) :
    List (List Char) :=
  match h : piece? previous? offset cs with
  | none => []
  | some p =>
    have := length_rest_of_piece? h
    p.segment :: segmentsFrom (some p.segment) (offset + p.size) p.rest
  termination_by cs.length

def segmentsOfChars (cs : List Char) : List (List Char) :=
  if isMangledChars cs then
    let junk := cs.takeWhile fun c => !c.isDigit
    segmentsFrom none (Text.byteLength junk) (cs.drop junk.length)
  else []

/-- The segments read from a symbol; none for a plain one. -/
def segments (raw : String) : List String := (segmentsOfChars raw.toList).map String.ofList

/-- The name in a symbol. A symbol without segments is its own name. -/
def decode (raw : String) : QualifiedName :=
  match segments raw with
  | [] => .ofSegments [raw]
  | s :: ss => .ofSegments (s :: ss)

end DecompTracker.Symbol
