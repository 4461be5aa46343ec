import DecompTracker.Symbol
import DecompTracker.Proofs.Text.Utf8

/-! The grammar of mangled symbols, as their bytes. After the mark and a part without digits stands
a row of items, each taken as long as it can be, and then a rest that no item starts. Byte counts
are numbers of any size here. Every symbol that carries the mark splits in exactly one way. -/
namespace DecompTracker.Symbol

open Text

/-! Runs -/

/-- Two cuts right after a run of members with one property are the same cut. -/
theorem append_inj_of_run {α : Type} {p : α → Prop} {as bs cs ds : List α}
    (has : ∀ a ∈ as, p a) (hbs : ∀ b ∈ bs.head?, ¬ p b) (hcs : ∀ c ∈ cs, p c)
    (hds : ∀ d ∈ ds.head?, ¬ p d) (h : as ++ bs = cs ++ ds) : as = cs ∧ bs = ds := by
  obtain ⟨es, rfl, rfl⟩ | ⟨es, rfl, rfl⟩ := List.append_eq_append_iff.mp h
  · cases es with
    | nil => simp
    | cons e es => exact absurd (hcs e (by simp)) (hbs e rfl)
  · cases es with
    | nil => simp
    | cons e es => exact absurd (has e (by simp)) (hds e rfl)

theorem exists_run {α : Type} (p : α → Prop) [DecidablePred p] (as : List α) :
    ∃ front back, as = front ++ back ∧ (∀ a ∈ front, p a) ∧ ∀ b ∈ back.head?, ¬ p b := by
  induction as with
  | nil => exact ⟨[], [], by simp⟩
  | cons a as ih =>
    by_cases ha : p a
    · obtain ⟨front, back, rfl, hfront, hback⟩ := ih
      exact ⟨a :: front, back, rfl, by simpa [ha] using hfront, hback⟩
    · exact ⟨[], a :: as, rfl, by simp, by simpa using ha⟩

/-! Items -/

/-- Whole characters right after their size in bytes, or a letter and a digit that repeat a
segment. -/
inductive Item where
  | counted (digits text : List Char)
  | marker (letter digit : Char)
  deriving DecidableEq, Repr

namespace Item

def written : Item → List Char
  | counted digits text => digits ++ text
  | marker letter digit => [letter, digit]

def bytes (item : Item) : List UInt8 := Text.bytes item.written

/-- What the item stands for after the segment `previous`. -/
def segment (previous : List Char) : Item → List Char
  | counted _ text => text
  | marker letter _ => if letter = 'C' then previous else '~' :: previous

/-- Whether the item can be read in front of the bytes `after`. The digits of a count do not go on
after it, and the text has as many bytes as they say. -/
def Fits (first : Bool) (after : List UInt8) : Item → Prop
  | counted digits text =>
    digits ≠ [] ∧ (∀ c ∈ digits, c.isDigit = true) ∧
      ¬ StartsWithDigit (Text.bytes text ++ after) ∧
      (Text.bytes text).length = Nat.ofDigitChars 10 digits 0
  | marker letter digit =>
    first = false ∧ (letter = 'C' ∨ letter = 'D') ∧ digit.isDigit = true

variable {first : Bool} {after after' : List UInt8} {item item' : Item}

theorem Fits.written_ne_nil (h : item.Fits first after) : item.written ≠ [] := by
  cases item with
  | counted digits text => simp [written, h.1]
  | marker letter digit => simp [written]

theorem Fits.length_bytes_pos (h : item.Fits first after) : 0 < item.bytes.length := by
  obtain ⟨c, cs, hc⟩ := List.exists_cons_of_ne_nil h.written_ne_nil
  have hne : String.utf8EncodeChar c ≠ [] := String.utf8EncodeChar_ne_nil
  rw [bytes, hc, bytes_cons, List.length_append]
  exact Nat.lt_of_lt_of_le (List.length_pos_iff.mpr hne) (Nat.le_add_right _ _)

/-- The first byte tells which kind of item can stand there. -/
theorem Fits.startsWithDigit_iff (h : item.Fits first after) {bs : List UInt8} :
    StartsWithDigit (item.bytes ++ bs) ↔ ∃ digits text, item = counted digits text := by
  cases item with
  | counted digits text =>
    obtain ⟨c, cs, rfl⟩ := List.exists_cons_of_ne_nil h.1
    have hc : c.isDigit = true := h.2.1 c List.mem_cons_self
    simp [bytes, written, hc]
  | marker letter digit =>
    have hletter : letter.isDigit = false := by rcases h.2.1 with rfl | rfl <;> rfl
    simp [bytes, written, hletter]

/-- At most one item can be read from given bytes. -/
theorem Fits.eq (h : item.Fits first after) (h' : item'.Fits first after')
    (hbytes : item.bytes ++ after = item'.bytes ++ after') : item = item' ∧ after = after' := by
  have hkind := h.startsWithDigit_iff.symm.trans (hbytes ▸ h'.startsWithDigit_iff)
  cases item with
  | counted digits text =>
    obtain ⟨digits', text', rfl⟩ := hkind.mp ⟨digits, text, rfl⟩
    obtain ⟨-, hdigits, hend, hsize⟩ := h
    obtain ⟨-, hdigits', hend', hsize'⟩ := h'
    simp only [bytes, written, bytes_append, List.append_assoc] at hbytes
    obtain ⟨hd, htext⟩ := append_inj_of_run (forall_isDigitByte hdigits)
      (fun b hb hdigit => hend ⟨b, hb, hdigit⟩) (forall_isDigitByte hdigits')
      (fun b hb hdigit => hend' ⟨b, hb, hdigit⟩) hbytes
    obtain rfl := bytes_injective hd
    obtain ⟨ht, hafter⟩ := List.append_inj htext (hsize.trans hsize'.symm)
    obtain rfl := bytes_injective ht
    exact ⟨rfl, hafter⟩
  | marker letter digit =>
    cases item' with
    | counted digits' text' =>
      obtain ⟨digits, text, hitem⟩ := hkind.mpr ⟨digits', text', rfl⟩
      cases hitem
    | marker letter' digit' =>
      simp only [bytes, written, bytes_cons, bytes_nil, List.append_nil,
        List.append_assoc] at hbytes
      obtain ⟨hletter, hrest⟩ := eq_of_utf8EncodeChar_append hbytes
      obtain ⟨hdigit, hafter⟩ := eq_of_utf8EncodeChar_append hrest
      exact ⟨by rw [hletter, hdigit], hafter⟩

end Item

/-! Rows of items -/

def rowBytes (items : List Item) : List UInt8 := items.flatMap Item.bytes

/-- Whether the items can be read one after the other and no further one from the rest. Only the
first item of a symbol has nothing to repeat. -/
def Row : Bool → List Item → List UInt8 → Prop
  | first, [], rest => ∀ (item : Item) after, rest = item.bytes ++ after → ¬ item.Fits first after
  | first, item :: items, rest =>
    item.Fits first (rowBytes items ++ rest) ∧ Row false items rest

theorem Row.eq {first : Bool} {items items' : List Item} {rest rest' : List UInt8}
    (h : Row first items rest) (h' : Row first items' rest')
    (hbytes : rowBytes items ++ rest = rowBytes items' ++ rest') :
    items = items' ∧ rest = rest' := by
  induction items generalizing first items' with
  | nil =>
    cases items' with
    | nil => exact ⟨rfl, hbytes⟩
    | cons item' items' =>
      have hrest : rest = item'.bytes ++ (rowBytes items' ++ rest') := by
        simpa [rowBytes] using hbytes
      exact absurd h'.1 (h item' _ hrest)
  | cons item items ih =>
    cases items' with
    | nil =>
      have hrest : rest' = item.bytes ++ (rowBytes items ++ rest) := by
        simpa [rowBytes] using hbytes.symm
      exact absurd h.1 (h' item _ hrest)
    | cons item' items' =>
      have hitems : item.bytes ++ (rowBytes items ++ rest) =
          item'.bytes ++ (rowBytes items' ++ rest') := by
        simpa [rowBytes] using hbytes
      obtain ⟨rfl, hafter⟩ := h.1.eq h'.1 hitems
      obtain ⟨rfl, rfl⟩ := ih h.2 h'.2 hafter
      exact ⟨rfl, rfl⟩

theorem exists_row (first : Bool) (bs : List UInt8) :
    ∃ items rest, bs = rowBytes items ++ rest ∧ Row first items rest := by
  induction hn : bs.length using Nat.strongRecOn generalizing first bs with
  | ind n ih =>
    by_cases hfits : ∃ (item : Item) (after : List UInt8),
        bs = item.bytes ++ after ∧ item.Fits first after
    · obtain ⟨item, after, rfl, hfits⟩ := hfits
      have hlt : after.length < n := by
        have hpos := hfits.length_bytes_pos
        rw [List.length_append] at hn
        omega
      obtain ⟨items, rest, rfl, hrow⟩ := ih after.length hlt false after rfl
      refine ⟨item :: items, rest, ?_, hfits, hrow⟩
      simp [rowBytes]
    · refine ⟨[], bs, rfl, ?_⟩
      intro item after hbs hitem
      exact hfits ⟨item, after, hbs, hitem⟩

def readItems (previous : List Char) : List Item → List (List Char)
  | [] => []
  | item :: items => item.segment previous :: readItems (item.segment previous) items

theorem length_readItems (previous : List Char) (items : List Item) :
    (readItems previous items).length = items.length := by
  induction items generalizing previous with
  | nil => rfl
  | cons item items ih => simp [readItems, ih]

/-! Whole symbols -/

def mark : List Char := ['_', 'Z']

/-- How the bytes of a symbol that carries the mark are divided. -/
@[ext]
structure Split (raw : String) where
  junk : List UInt8
  items : List Item
  rest : List UInt8
  whole : Text.bytes raw.toList = Text.bytes mark ++ (junk ++ (rowBytes items ++ rest))
  junk_plain : ∀ b ∈ junk, ¬ IsDigitByte b
  junk_longest : ∀ b ∈ (rowBytes items ++ rest).head?, IsDigitByte b
  row : Row true items rest

variable {raw : String}

theorem Split.eq (s t : Split raw) : s = t := by
  have hwhole : s.junk ++ (rowBytes s.items ++ s.rest) =
      t.junk ++ (rowBytes t.items ++ t.rest) :=
    List.append_cancel_left (s.whole.symm.trans t.whole)
  have hs : ∀ b ∈ (rowBytes s.items ++ s.rest).head?, ¬ ¬ IsDigitByte b :=
    fun b hb => not_not_intro (s.junk_longest b hb)
  have ht : ∀ b ∈ (rowBytes t.items ++ t.rest).head?, ¬ ¬ IsDigitByte b :=
    fun b hb => not_not_intro (t.junk_longest b hb)
  obtain ⟨hjunk, hrow⟩ := append_inj_of_run s.junk_plain hs t.junk_plain ht hwhole
  obtain ⟨hitems, hrest⟩ := s.row.eq t.row hrow
  exact Split.ext hjunk hitems hrest

theorem exists_split (hmark : mark <+: raw.toList) : Nonempty (Split raw) := by
  obtain ⟨cs, hcs⟩ := hmark
  obtain ⟨junk, row, hcut, hjunk, hrow⟩ := exists_run (¬ IsDigitByte ·) (Text.bytes cs)
  obtain ⟨items, rest, rfl, hitems⟩ := exists_row true row
  refine ⟨junk, items, rest, ?_, hjunk, ?_, hitems⟩
  · rw [← hcs, bytes_append, hcut]
  · exact fun b hb => not_not.mp (hrow b hb)

end DecompTracker.Symbol
