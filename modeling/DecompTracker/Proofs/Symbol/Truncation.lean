import DecompTracker.Proofs.Symbol.Scanning

/-! Symbols that are cut short. Whatever is read from the front of a symbol is read from the whole
symbol too, with one exception: when the cut leaves nothing but zeros of a byte count, they count an
empty segment. Any other beginning of a count asks for bytes that have been cut off. -/
namespace DecompTracker.Symbol

open Text

variable {previous? : Option (List Char)} {offset : Nat} {cs more : List Char} {p : Piece}

/-- All that is left of a byte count are zeros, and its digits go on in what was cut off. -/
structure CutInZeros (zeros more : List Char) : Prop where
  ne_nil : zeros ≠ []
  all_zero : ∀ c ∈ zeros, c = '0'
  goes_on : ∃ c ∈ more.head?, c.isDigit = true

theorem ofDigitChars_of_zeros (h : ∀ c ∈ cs, c = '0') : Nat.ofDigitChars 10 cs 0 = 0 := by
  induction cs with
  | nil => rfl
  | cons c cs ih =>
    obtain ⟨rfl, hcs⟩ := List.forall_mem_cons.mp h
    rw [Nat.ofDigitChars_cons]
    exact ih hcs

theorem zeros_of_ofDigitChars (hdigits : ∀ c ∈ cs, c.isDigit = true)
    (h : Nat.ofDigitChars 10 cs 0 = 0) : ∀ c ∈ cs, c = '0' := by
  induction cs with
  | nil => simp
  | cons c cs ih =>
    obtain ⟨hc, hcs⟩ := List.forall_mem_cons.mp hdigits
    have hle := le_ofDigitChars (10 * 0 + (c.toNat - '0'.toNat)) cs
    rw [← Nat.ofDigitChars_cons, h] at hle
    have hrange := isDigit_iff_toNat.mp hc
    have hzero : '0'.toNat = 48 := rfl
    have hchar : c = '0' := Char.toNat_inj.mp (by omega)
    subst hchar
    exact List.forall_mem_cons.mpr ⟨rfl, ih hcs (by simpa [Nat.ofDigitChars_cons] using h)⟩

/-- Such zeros are an item of their own. -/
theorem CutInZeros.fits (h : CutInZeros cs more) (first : Bool) :
    (Item.counted cs []).Fits first [] := by
  refine ⟨h.ne_nil, fun c hc => ?_, ?_, ?_⟩
  · rw [h.all_zero c hc]
    rfl
  · simp [StartsWithDigit]
  · rw [ofDigitChars_of_zeros h.all_zero]
    rfl

/-! Pieces -/

theorem marker?_append {letter : Char} {rest : List Char}
    (h : marker? cs = some (letter, rest)) : marker? (cs ++ more) = some (letter, rest ++ more) := by
  obtain ⟨digit, rfl, hmarker⟩ := marker?_eq_some_iff.mp h
  exact marker?_eq_some_iff.mpr ⟨digit, rfl, hmarker⟩

/-- A count is read alike unless it is the count itself that goes on. -/
theorem counted?_append (h : counted? offset cs = some p) :
    counted? offset (cs ++ more) = some { p with rest := p.rest ++ more } ∨
      (p.segment = [] ∧ p.rest = [] ∧ CutInZeros cs more) := by
  obtain ⟨digits, hcs, ⟨hne, hdigits, hend, hcount⟩, hsize, hbound⟩ :=
    exists_fits_of_counted? true h
  rw [← bytes_append, startsWithDigit_bytes] at hend
  by_cases hcut : p.segment ++ p.rest = [] ∧ ∃ c ∈ more.head?, c.isDigit = true
  · obtain ⟨hnil, hmore⟩ := hcut
    obtain ⟨hsegment, hrest⟩ := List.append_eq_nil_iff.mp hnil
    rw [hnil, List.append_nil] at hcs
    rw [hsegment] at hcount
    subst hcs
    exact .inr ⟨hsegment, hrest, hne, zeros_of_ofDigitChars hdigits hcount.symm, hmore⟩
  · left
    have hfits : (Item.counted digits p.segment).Fits true (bytes (p.rest ++ more)) := by
      refine ⟨hne, hdigits, ?_, hcount⟩
      rw [← bytes_append, startsWithDigit_bytes, ← List.append_assoc]
      cases htail : p.segment ++ p.rest with
      | nil => exact fun hmore => hcut ⟨htail, hmore⟩
      | cons c tail =>
        rw [htail] at hend
        exact hend
    rw [hsize] at hbound
    have hread := counted?_of_fits hfits hbound
    rw [hcs, List.append_assoc, List.append_assoc, hread, ← hsize]

theorem piece?_append (h : piece? previous? offset cs = some p) (more : List Char) :
    piece? previous? offset (cs ++ more) = some { p with rest := p.rest ++ more } ∨
      (p.segment = [] ∧ p.rest = [] ∧ CutInZeros cs more) := by
  rw [piece?] at h
  split at h
  · rename_i letter rest hm
    obtain ⟨previous, rfl, rfl⟩ := Option.map_eq_some_iff.mp h
    left
    rw [piece?, marker?_append hm]
    rfl
  · refine (counted?_append h).imp_left fun hread => ?_
    -- A count starts with a digit, which no marker does.
    have hmarker : marker? (cs ++ more) = none := by
      rw [Option.eq_none_iff_forall_ne_some]
      rintro ⟨letter, tail⟩ hm
      obtain ⟨digit, hcs, hletter, -⟩ := marker?_eq_some_iff.mp hm
      obtain ⟨digits, rfl, hfits, -⟩ := exists_fits_of_counted? true h
      obtain ⟨c, ds, rfl⟩ := List.exists_cons_of_ne_nil hfits.1
      have hc : c.isDigit = true := hfits.2.1 c List.mem_cons_self
      obtain rfl : c = letter := (List.cons.inj hcs).1
      rcases hletter with rfl | rfl <;> simp at hc
    rw [piece?, hmarker]
    exact hread

/-! Rows -/

theorem segmentsFrom_nil : segmentsFrom previous? offset [] = [] :=
  segmentsFrom_of_none (by simp [piece?, marker?, counted?])

theorem row_nil_nil (first : Bool) : Row first [] [] := by
  intro item after hnil hfits
  have hpos := hfits.length_bytes_pos
  rw [(List.append_eq_nil_iff.mp hnil.symm).1] at hpos
  exact Nat.lt_irrefl 0 hpos

/-- The row ends with a count that holds nothing but zeros. -/
def EndsInZeros (first : Bool) (cs more : List Char) : Prop :=
  ∃ items zeros, Row first (items ++ [.counted zeros []]) [] ∧
    bytes cs = rowBytes (items ++ [.counted zeros []]) ∧ CutInZeros zeros more

/-- Reading goes on piece by piece as it would without the cut, up to the place of the cut. -/
theorem segmentsFrom_append (previous? : Option (List Char)) (offset : Nat) (cs more : List Char) :
    segmentsFrom previous? offset cs <+: segmentsFrom previous? offset (cs ++ more) ∨
      ∃ scope, segmentsFrom previous? offset cs = scope ++ [[]] ∧
        scope <+: segmentsFrom previous? offset (cs ++ more) ∧
        EndsInZeros previous?.isNone cs more := by
  induction hn : cs.length using Nat.strongRecOn generalizing previous? offset cs with
  | ind n ih =>
    cases hp : piece? previous? offset cs with
    | none =>
      left
      rw [segmentsFrom_of_none hp]
      exact List.nil_prefix
    | some p =>
      rw [segmentsFrom_of_some hp]
      rcases piece?_append hp more with hread | ⟨hsegment, hrest, hzeros⟩
      · rw [segmentsFrom_of_some hread]
        have hlt : p.rest.length < n := hn ▸ length_rest_of_piece? hp
        rcases ih _ hlt (some p.segment) (offset + p.size) p.rest rfl with
          hleads | ⟨scope, hscope, hleads, items, zeros, hrow, hbytes, hzeros⟩
        · exact .inl ((List.cons_prefix_cons).mpr ⟨rfl, hleads⟩)
        · obtain ⟨item, hcs, hfits⟩ := exists_fits_of_piece? hp
          refine .inr ⟨p.segment :: scope, by rw [hscope, List.cons_append],
            List.cons_prefix_cons.mpr ⟨rfl, hleads⟩, item :: items, zeros, ?_, ?_, hzeros⟩
          · rw [hbytes] at hfits
            exact ⟨by rwa [List.append_nil], hrow⟩
          · rw [hcs, bytes_append, hbytes]
            rfl
      · rw [hsegment, hrest, segmentsFrom_nil]
        refine .inr ⟨[], rfl, List.nil_prefix, [], cs, ?_, ?_, hzeros⟩
        · exact ⟨hzeros.fits _, row_nil_nil false⟩
        · simp [rowBytes, Item.bytes, Item.written]

/-! Whole symbols -/

/-- The front of a symbol ends inside a byte count, of which it holds nothing but zeros. -/
def EndsInsideCount (front back : String) : Prop :=
  ∃ (s : Split front) (items : List Item) (zeros : List Char),
    s.items = items ++ [.counted zeros []] ∧ s.rest = [] ∧ CutInZeros zeros back.toList

theorem endsInsideCount_of_row {front back : String} {junk row : List Char}
    (hfront : mark ++ (junk ++ row) = front.toList) (hjunk : ∀ c ∈ junk, c.isDigit = false)
    (hrow : ∀ c ∈ row.head?, c.isDigit = true) (h : EndsInZeros true row back.toList) :
    EndsInsideCount front back := by
  obtain ⟨items, zeros, hitems, hbytes, hzeros⟩ := h
  have hwhole : bytes front.toList =
      bytes mark ++ (bytes junk ++ (rowBytes (items ++ [Item.counted zeros []]) ++ [])) := by
    rw [← hfront, bytes_append, bytes_append, hbytes, List.append_nil]
  have hlongest : ∀ b ∈ (rowBytes (items ++ [Item.counted zeros []]) ++ []).head?,
      IsDigitByte b := by
    rw [List.append_nil, ← hbytes]
    cases row with
    | nil => simp
    | cons c row =>
      have hstart : StartsWithDigit (bytes (c :: row)) :=
        startsWithDigit_bytes.mpr ⟨c, rfl, hrow c rfl⟩
      exact fun b hb => hstart.isDigitByte hb
  exact ⟨⟨bytes junk, items ++ [.counted zeros []], [], hwhole, forall_not_isDigitByte hjunk,
    hlongest, hitems⟩, items, zeros, rfl, rfl, hzeros⟩

/-- What is read from the front of a symbol is read from the whole symbol, but for an empty segment
when the cut goes through a byte count after some zeros. -/
theorem segments_cut_short (front back : String) :
    segments front <+: segments (front ++ back) ∨
      ∃ scope, segments front = scope ++ [""] ∧ scope <+: segments (front ++ back) ∧
        EndsInsideCount front back := by
  by_cases hmark : mark <+: front.toList
  · obtain ⟨cs, hfront⟩ := hmark
    obtain ⟨junk, row, rfl, hjunk, hstart⟩ := exists_run (fun c => c.isDigit = false) cs
    have hrow : ∀ c ∈ row.head?, c.isDigit = true := fun c hc => by simpa using hstart c hc
    have hwhole : mark ++ (junk ++ (row ++ back.toList)) = (front ++ back).toList := by
      rw [String.toList_append, ← hfront, List.append_assoc, List.append_assoc]
    have hread : segments front =
        (segmentsFrom none (byteLength (mark ++ junk)) row).map String.ofList := by
      rw [segments, ← hfront, segmentsOfChars_of_cut hjunk hrow]
    cases row with
    | nil =>
      left
      rw [hread, segmentsFrom_nil]
      exact List.nil_prefix
    | cons c row =>
      have hcs : ∀ d ∈ (c :: row ++ back.toList).head?, d.isDigit = true := hrow
      rw [hread, segments, ← hwhole, segmentsOfChars_of_cut hjunk hcs]
      rcases segmentsFrom_append none (byteLength (mark ++ junk)) (c :: row) back.toList with
        hleads | ⟨scope, hscope, hleads, hzeros⟩
      · exact .inl (hleads.map String.ofList)
      · refine .inr ⟨scope.map String.ofList, by rw [hscope, List.map_append]; rfl,
          hleads.map String.ofList, ?_⟩
        exact endsInsideCount_of_row hfront hjunk hrow hzeros
  · left
    rw [segments_of_not_mark hmark]
    exact List.nil_prefix

end DecompTracker.Symbol
