import DecompTracker.Proofs.Symbol.Grammar
import DecompTracker.Proofs.Text.Numeral
import Mathlib.Algebra.Group.Nat.Defs

/-! Reading a symbol follows the grammar. A piece is read exactly when an item stands at the front;
the limits on counts and places only refuse counts that the bytes at hand cannot meet. -/
namespace DecompTracker.Symbol

open Text

variable {previous? : Option (List Char)} {offset : Nat} {cs rest : List Char} {item : Item}

theorem byteLength_of_isDigit {ds : List Char} (h : ∀ c ∈ ds, c.isDigit = true) :
    byteLength ds = ds.length := by
  induction ds with
  | nil => rfl
  | cons d ds ih =>
    have hd : d.utf8Size = 1 := utf8Size_of_isDigit (h d List.mem_cons_self)
    rw [byteLength_cons, hd, ih (fun c hc => h c (List.mem_cons_of_mem d hc)),
      List.length_cons, Nat.add_comm]

/-! Markers -/

theorem marker?_eq_some_iff {letter : Char} :
    marker? cs = some (letter, rest) ↔ ∃ digit, cs = letter :: digit :: rest ∧
      (letter = 'C' ∨ letter = 'D') ∧ digit.isDigit = true := by
  rw [marker?.eq_def]
  split
  · rename_i m d tail
    by_cases hm : (m = 'C' ∨ m = 'D') ∧ d.isDigit = true
    · rw [if_pos hm]
      simp only [Option.some.injEq, Prod.mk.injEq, List.cons.injEq]
      constructor
      · rintro ⟨rfl, rfl⟩
        exact ⟨d, ⟨rfl, rfl, rfl⟩, hm⟩
      · rintro ⟨digit, ⟨rfl, rfl, rfl⟩, -⟩
        exact ⟨rfl, rfl⟩
    · rw [if_neg hm]
      simp only [reduceCtorEq, List.cons.injEq, false_iff]
      rintro ⟨digit, ⟨rfl, rfl, rfl⟩, hm'⟩
      exact hm hm'
  · rename_i hshort
    simp only [reduceCtorEq, false_iff]
    rintro ⟨digit, rfl, -⟩
    exact hshort letter digit rest rfl

/-! Counts -/

theorem counted?_of_fits {digits text : List Char} {first : Bool}
    (h : (Item.counted digits text).Fits first (bytes rest))
    (hsize : offset + byteLength (digits ++ text) ≤ maxWord) :
    counted? offset (digits ++ (text ++ rest)) =
      some { segment := text, size := byteLength (digits ++ text), rest } := by
  obtain ⟨hne, hdigits, hend, hcount⟩ := h
  have hboundary : ∀ c ∈ (text ++ rest).head?, ¬ c.isDigit = true := by
    rw [← bytes_append, startsWithDigit_bytes] at hend
    exact fun c hc hdigit => hend ⟨c, hc, hdigit⟩
  obtain ⟨htake, hdrop⟩ := takeWhile_dropWhile_of_run hdigits hboundary
  have hlength := byteLength_of_isDigit hdigits
  rw [length_bytes] at hcount
  simp only [byteLength_append, hlength] at hsize ⊢
  have hextend : extend 10 0 digits = .ok (byteLength text) := by
    rw [extend_decimal (Nat.zero_le _) hdigits, ← hcount, if_pos (by omega)]
  have hcut : takeBytes (byteLength text) (text ++ rest) = some (text, rest) :=
    takeBytes_eq_some_iff.mpr ⟨rfl, rfl⟩
  simp only [counted?, htake, hdrop, if_neg hne, hextend, hcut]
  rw [if_neg (by omega)]
  rfl

theorem exists_fits_of_counted? {p : Piece} (first : Bool) (h : counted? offset cs = some p) :
    ∃ digits, cs = digits ++ (p.segment ++ p.rest) ∧
      (Item.counted digits p.segment).Fits first (bytes p.rest) ∧
      p.size = byteLength (digits ++ p.segment) ∧ offset + p.size ≤ maxWord := by
  obtain ⟨digits, tail, rfl, hdigits, hboundary⟩ := exists_run (fun c => c.isDigit = true) cs
  obtain ⟨htake, hdrop⟩ := takeWhile_dropWhile_of_run hdigits hboundary
  simp only [counted?, htake, hdrop, extend_decimal (Nat.zero_le maxWord) hdigits] at h
  split at h
  · cases h
  · rename_i hne
    split at h
    · cases h
    · rename_i count hcount
      have hvalue : Nat.ofDigitChars 10 digits 0 = count := by
        split at hcount
        · exact Except.ok.inj hcount
        · cases hcount
      split at h
      · cases h
      · rename_i hbound
        obtain ⟨⟨text, rest⟩, ht, rfl⟩ := Option.map_eq_some_iff.mp h
        obtain ⟨rfl, hsize⟩ := takeBytes_eq_some_iff.mp ht
        refine ⟨digits, rfl, ⟨hne, hdigits, ?_, ?_⟩, ?_, Nat.not_lt.mp hbound⟩
        · rw [← bytes_append, startsWithDigit_bytes]
          rintro ⟨c, hc, hdigit⟩
          exact hboundary c hc hdigit
        · rw [length_bytes, hsize, hvalue]
        · rw [byteLength_append, byteLength_of_isDigit hdigits, hsize]

/-! Pieces -/

theorem piece?_of_fits (h : item.Fits previous?.isNone (bytes rest))
    (hsize : offset + byteLength item.written ≤ maxWord) :
    piece? previous? offset (item.written ++ rest) = some
      { segment := item.segment (previous?.getD []), size := byteLength item.written, rest } := by
  cases item with
  | counted digits text =>
    -- No letter of a marker is a digit.
    have hmarker : marker? (digits ++ (text ++ rest)) = none := by
      rw [Option.eq_none_iff_forall_ne_some]
      rintro ⟨letter, tail⟩ hm
      obtain ⟨digit, hcs, hletter, -⟩ := marker?_eq_some_iff.mp hm
      obtain ⟨c, ds, rfl⟩ := List.exists_cons_of_ne_nil h.1
      have hc : c.isDigit = true := h.2.1 c List.mem_cons_self
      obtain rfl : c = letter := (List.cons.inj hcs).1
      rcases hletter with rfl | rfl <;> simp at hc
    simp only [Item.written, List.append_assoc] at hsize ⊢
    rw [piece?, hmarker]
    exact counted?_of_fits h hsize
  | marker letter digit =>
    obtain ⟨hprevious, hmarker⟩ := h
    have hm : marker? (letter :: digit :: rest) = some (letter, rest) :=
      marker?_eq_some_iff.mpr ⟨digit, rfl, hmarker⟩
    obtain ⟨previous, rfl⟩ := Option.isSome_iff_exists.mp
      (Option.isNone_eq_false_iff.mp hprevious)
    have hl : letter.utf8Size = 1 := by rcases hmarker.1 with rfl | rfl <;> rfl
    have hd : digit.utf8Size = 1 := utf8Size_of_isDigit hmarker.2
    simp [piece?, Item.written, Item.segment, hm, hl, hd]

theorem exists_fits_of_piece? {p : Piece} (h : piece? previous? offset cs = some p) :
    ∃ item : Item, cs = item.written ++ p.rest ∧ item.Fits previous?.isNone (bytes p.rest) := by
  rw [piece?] at h
  split at h
  · rename_i letter tail hm
    obtain ⟨digit, rfl, hmarker⟩ := marker?_eq_some_iff.mp hm
    obtain ⟨previous, rfl, rfl⟩ := Option.map_eq_some_iff.mp h
    exact ⟨.marker letter digit, rfl, rfl, hmarker⟩
  · obtain ⟨digits, hcs, hfits, -⟩ := exists_fits_of_counted? previous?.isNone h
    refine ⟨.counted digits p.segment, ?_, hfits⟩
    rw [Item.written, List.append_assoc]
    exact hcs

/-! Rows -/

theorem segmentsFrom_of_none (h : piece? previous? offset cs = none) :
    segmentsFrom previous? offset cs = [] := by
  rw [segmentsFrom]
  split
  · rfl
  · rename_i p hp
    rw [h] at hp
    cases hp

theorem segmentsFrom_of_some (h : piece? previous? offset cs = some p) :
    segmentsFrom previous? offset cs =
      p.segment :: segmentsFrom (some p.segment) (offset + p.size) p.rest := by
  rw [segmentsFrom]
  split
  · rename_i hnone
    rw [h] at hnone
    cases hnone
  · rename_i q hq
    rw [h] at hq
    cases hq
    rfl

/-- Reading a row gives what its items stand for. -/
theorem segmentsFrom_of_row {items : List Item} {tail : List UInt8}
    (h : Row previous?.isNone items tail) (hcs : bytes cs = rowBytes items ++ tail)
    (hsize : offset + byteLength cs ≤ maxWord) :
    segmentsFrom previous? offset cs = readItems (previous?.getD []) items := by
  induction items generalizing previous? offset cs with
  | nil =>
    have hnone : piece? previous? offset cs = none := by
      rw [Option.eq_none_iff_forall_ne_some]
      intro p hp
      obtain ⟨item, rfl, hfits⟩ := exists_fits_of_piece? hp
      rw [bytes_append] at hcs
      exact h item (bytes p.rest) hcs.symm hfits
    rw [segmentsFrom_of_none hnone, readItems]
  | cons item items ih =>
    have hfront : bytes cs = bytes item.written ++ (rowBytes items ++ tail) := by
      rw [hcs]
      simp [rowBytes, Item.bytes]
    obtain ⟨rest, rfl, hrest⟩ := exists_of_bytes_eq_append hfront
    obtain ⟨hfits, hrow⟩ := h
    rw [hrest] at hfits
    rw [byteLength_append] at hsize
    have hitem : offset + byteLength item.written ≤ maxWord := by omega
    have hpiece := piece?_of_fits hfits hitem
    rw [segmentsFrom_of_some hpiece, readItems]
    exact congrArg _ (ih hrow hrest.symm (by simp; omega))

/-! Whole symbols -/

theorem isMangledChars_iff : isMangledChars cs = true ↔ mark <+: cs := by
  rw [isMangledChars.eq_def]
  split
  · simp [mark]
  · rename_i hcs
    simp only [reduceCtorEq, false_iff]
    rintro ⟨tail, rfl⟩
    exact hcs tail rfl

theorem segmentsOfChars_of_cut {junk row : List Char} (hjunk : ∀ c ∈ junk, c.isDigit = false)
    (hrow : ∀ c ∈ row.head?, c.isDigit = true) :
    segmentsOfChars (mark ++ (junk ++ row)) =
      segmentsFrom none (byteLength (mark ++ junk)) row := by
  have hmangled : isMangledChars (mark ++ (junk ++ row)) = true := rfl
  have hplain : ∀ c ∈ mark ++ junk, (!c.isDigit) = true := by
    simp only [mark, List.mem_append, List.mem_cons, List.not_mem_nil, or_false]
    rintro c ((rfl | rfl) | hc)
    · rfl
    · rfl
    · simp [hjunk c hc]
  have hend : ∀ c ∈ row.head?, ¬ (!c.isDigit) = true := fun c hc => by simp [hrow c hc]
  have htake := (takeWhile_dropWhile_of_run hplain hend).1
  rw [List.append_assoc] at htake
  simp only [segmentsOfChars, hmangled, if_true, htake]
  rw [← List.append_assoc, List.drop_left]

/-- Bytes without a digit before the first digit are whole characters. -/
theorem exists_cut {junk bs : List UInt8} (hcs : bytes cs = junk ++ bs)
    (hjunk : ∀ b ∈ junk, ¬ IsDigitByte b) (hbs : ∀ b ∈ bs.head?, IsDigitByte b) :
    ∃ front back, cs = front ++ back ∧ bytes back = bs ∧ (∀ c ∈ front, c.isDigit = false) ∧
      ∀ c ∈ back.head?, c.isDigit = true := by
  obtain ⟨front, back, rfl, hfront, hback⟩ := exists_run (fun c => c.isDigit = false) cs
  have hdigit : ∀ c ∈ back.head?, c.isDigit = true := fun c hc => by simpa using hback c hc
  have hplain := forall_not_isDigitByte hfront
  have hend : ∀ b ∈ (bytes back).head?, ¬ ¬ IsDigitByte b := by
    intro b hb
    cases back with
    | nil => simp at hb
    | cons c back =>
      have hstart : StartsWithDigit (bytes (c :: back)) :=
        startsWithDigit_bytes.mpr ⟨c, rfl, hdigit c rfl⟩
      exact not_not_intro (hstart.isDigitByte hb)
  have hstop : ∀ b ∈ bs.head?, ¬ ¬ IsDigitByte b := fun b hb => not_not_intro (hbs b hb)
  rw [bytes_append] at hcs
  exact ⟨front, back, rfl, (append_inj_of_run hplain hend hjunk hstop hcs).2, hfront, hdigit⟩

variable {raw : String}

theorem segments_of_split (s : Split raw) (hsize : raw.utf8ByteSize < 2 ^ 63) :
    segments raw = (readItems [] s.items).map String.ofList := by
  obtain ⟨cs, hcs, hbytes⟩ := exists_of_bytes_eq_append s.whole
  obtain ⟨front, back, rfl, hback, hfront, hrow⟩ :=
    exists_cut hbytes.symm s.junk_plain s.junk_longest
  rw [← byteLength_toList, hcs, ← List.append_assoc, byteLength_append] at hsize
  have hword : 2 ^ 63 ≤ maxWord := by decide
  rw [segments, hcs, segmentsOfChars_of_cut hfront hrow]
  exact congrArg _ (segmentsFrom_of_row s.row hback (by omega))

theorem segments_of_not_mark (hmark : ¬ mark <+: raw.toList) : segments raw = [] := by
  have hplain : isMangledChars raw.toList = false := by
    rw [← Bool.not_eq_true, isMangledChars_iff]
    exact hmark
  simp [segments, segmentsOfChars, hplain]

theorem segments_decode (raw : String) :
    (decode raw).segments = if segments raw = [] then [raw] else segments raw := by
  rw [decode]
  split
  · rename_i hnil
    simp [hnil, QualifiedName.ofSegments]
  · rename_i s ss hcons
    simp [hcons, QualifiedName.ofSegments]

theorem segments_eq_nil_iff (hsize : raw.utf8ByteSize < 2 ^ 63) :
    segments raw = [] ↔ ¬ mark <+: raw.toList ∨ ∃ s : Split raw, s.items = [] := by
  by_cases hmark : mark <+: raw.toList
  · obtain ⟨s⟩ := exists_split hmark
    have hsegments : segments raw = [] ↔ s.items = [] := by
      rw [segments_of_split s hsize, List.map_eq_nil_iff, ← List.length_eq_zero_iff,
        length_readItems, List.length_eq_zero_iff]
    constructor
    · intro h
      exact .inr ⟨s, hsegments.mp h⟩
    · rintro (h | ⟨t, ht⟩)
      · exact absurd hmark h
      · exact hsegments.mpr (Split.eq t s ▸ ht)
  · simp [segments_of_not_mark hmark, hmark]

theorem segments_ne_self (hsize : raw.utf8ByteSize < 2 ^ 63) : segments raw ≠ [raw] := by
  intro h
  have hmark : mark <+: raw.toList := by
    by_contra hmark
    rw [segments_of_not_mark hmark] at h
    cases h
  obtain ⟨s⟩ := exists_split hmark
  have hread := segments_of_split s hsize
  have hwhole := congrArg List.length s.whole
  have hrow := s.row
  rw [h] at hread
  -- The text of a single item would be the symbol, mark included.
  cases hitems : s.items with
  | nil => simp [hitems, readItems] at hread
  | cons item items =>
    rw [hitems] at hread hwhole hrow
    cases item with
    | marker letter digit => simp [Row, Item.Fits] at hrow
    | counted digits text =>
      have htext : raw.toList = text := by
        simp only [readItems, Item.segment, List.map_cons, List.cons.injEq] at hread
        rw [hread.1, String.toList_ofList]
      have htwo : (bytes mark).length = 2 := rfl
      simp only [htext, rowBytes, List.flatMap_cons, Item.bytes, Item.written, bytes_append,
        List.length_append, htwo] at hwhole
      omega

/-- A symbol without the mark has no segments. With it, the symbol splits in a single way, and its
segments are what the items of that split stand for. -/
theorem segments_follow_grammar (raw : String) (hsize : raw.utf8ByteSize < 2 ^ 63) :
    (¬ mark <+: raw.toList → segments raw = []) ∧
    (mark <+: raw.toList → ∃ s : Split raw, (∀ t : Split raw, t = s) ∧
      segments raw = (readItems [] s.items).map String.ofList ∧
      (segments raw).length = s.items.length) ∧
    (segments raw ≠ [] → (decode raw).segments = segments raw) ∧
    ((decode raw).segments = [raw] ↔
      ¬ mark <+: raw.toList ∨ ∃ s : Split raw, s.items = []) := by
  refine ⟨segments_of_not_mark, ?_, ?_, ?_⟩
  · intro hmark
    obtain ⟨s⟩ := exists_split hmark
    have hs := segments_of_split s hsize
    refine ⟨s, fun t => Split.eq t s, hs, ?_⟩
    rw [hs, List.length_map, length_readItems]
  · intro hne
    rw [segments_decode, if_neg hne]
  · rw [← segments_eq_nil_iff hsize, segments_decode]
    split
    · rename_i hnil
      simp [hnil]
    · rename_i hne
      simp [hne, segments_ne_self hsize]

theorem segments_follow_grammar_constructor :
    "_ZN3FooC1Ev".utf8ByteSize < 2 ^ 63 ∧ mark <+: "_ZN3FooC1Ev".toList ∧
      ∃ s : Split "_ZN3FooC1Ev", (∀ t : Split "_ZN3FooC1Ev", t = s) ∧ s.items.length = 2 ∧
        segments "_ZN3FooC1Ev" = ["Foo", "Foo"] := by
  have hsize : "_ZN3FooC1Ev".utf8ByteSize < 2 ^ 63 := by decide
  have hmark : mark <+: "_ZN3FooC1Ev".toList := by decide
  have hsegments : segments "_ZN3FooC1Ev" = ["Foo", "Foo"] := by decide +kernel
  obtain ⟨s, hunique, -, hlength⟩ := (segments_follow_grammar "_ZN3FooC1Ev" hsize).2.1 hmark
  rw [hsegments] at hlength
  exact ⟨hsize, hmark, s, hunique, hlength.symm, hsegments⟩

end DecompTracker.Symbol
