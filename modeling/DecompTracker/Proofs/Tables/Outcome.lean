import DecompTracker.Proofs.Tables.Functions

/-! How reading the lines of a function table ends. A text is read exactly when its first line that is
not blank titles the four columns and every later line that is not blank fits them. It then gives one
entry for each such line, in their order; otherwise the first line that does not fit is the one that
the error names, counted as an editor counts lines. -/
namespace DecompTracker

/-! Lines that are not blank -/

namespace Text

/-- The line with this number, counted from one, is not blank. -/
def FilledAt (text : String) (number : Nat) (line : String) : Prop :=
  0 < number ∧ (lines text)[number - 1]? = some line ∧ ∃ c ∈ line.toList, isBlank c = false

/-- The first line of a text that is not blank. -/
def FirstFilledAt (text : String) (number : Nat) (line : String) : Prop :=
  FilledAt text number line ∧ ∀ k other, FilledAt text k other → number ≤ k

/-- The lines after a line that are not blank, with their numbers and in their order. -/
structure LaterLines (text : String) (first : Nat) (rows : List (String × Nat)) : Prop where
  increasing : rows.Pairwise fun a b => a.2 < b.2
  mem_iff : ∀ line number, (line, number) ∈ rows ↔ first < number ∧ FilledAt text number line

end Text

theorem mem_filledLines {text line : String} {number : Nat} :
    (line, number) ∈ filledLines text ↔ Text.FilledAt text number line := by
  rw [filledLines, List.mem_filter, List.mk_mem_zipIdx_iff_le_and_getElem?_sub, and_assoc]
  refine and_congr_right fun _ => and_congr_right fun _ => ?_
  simp [Text.allBlank]

theorem pairwise_filledLines (text : String) :
    (filledLines text).Pairwise fun a b => a.2 < b.2 := by
  have hall : (((Text.lines text).zipIdx 1).map Prod.snd).Pairwise (· < ·) := by
    rw [List.zipIdx_map_snd]
    exact List.pairwise_lt_range'
  exact (List.pairwise_map.mp hall).filter _

/-- The first line that is not blank, and the later ones. -/
theorem exists_filledLines_eq {text header : String} {first : Nat}
    (h : Text.FirstFilledAt text first header) :
    ∃ rows, filledLines text = (header, first) :: rows ∧ Text.LaterLines text first rows := by
  have hsorted := pairwise_filledLines text
  obtain ⟨hfilled, hfirst⟩ := h
  have hmem := mem_filledLines.mpr hfilled
  cases hl : filledLines text with
  | nil => simp [hl] at hmem
  | cons row rows =>
    obtain ⟨line, number⟩ := row
    rw [hl] at hmem hsorted
    obtain ⟨hlt, hrows⟩ := List.pairwise_cons.mp hsorted
    have hrow : Text.FilledAt text number line := mem_filledLines.mp (by simp [hl])
    -- No line of the text stands before the first entry of the list.
    have heq : (header, first) = (line, number) := by
      rcases List.mem_cons.mp hmem with heq | hlater
      · exact heq
      · have := hlt _ hlater
        have := hfirst _ _ hrow
        omega
    obtain ⟨rfl, rfl⟩ := Prod.mk.inj heq
    refine ⟨rows, rfl, hrows, fun other k => ?_⟩
    rw [← mem_filledLines, hl, List.mem_cons]
    constructor
    · intro hk
      exact ⟨hlt _ hk, .inr hk⟩
    · rintro ⟨hk, heq | hk'⟩
      · obtain ⟨-, rfl⟩ := Prod.mk.inj heq
        omega
      · exact hk'

theorem firstFilledAt_of_filledLines_eq {text header : String} {first : Nat}
    {rows : List (String × Nat)} (h : filledLines text = (header, first) :: rows) :
    Text.FirstFilledAt text first header := by
  have hsorted := pairwise_filledLines text
  rw [h] at hsorted
  refine ⟨mem_filledLines.mp (by simp [h]), fun k other hk => ?_⟩
  have hmem := mem_filledLines.mpr hk
  rw [h, List.mem_cons] at hmem
  rcases hmem with heq | hlater
  · exact (Prod.mk.inj heq).2.ge
  · exact ((List.pairwise_cons.mp hsorted).1 _ hlater).le

/-! The header -/

namespace Columns

/-- The first field of the header with this title stands here. -/
def TitledAt (header : List String) (title : String) (i : Nat) : Prop :=
  (∃ field, header[i]? = some field ∧ Column.IsTitle title field) ∧
    ∀ j field, j < i → header[j]? = some field → ¬ Column.IsTitle title field

/-- The columns stand where the header titles them first. -/
structure TitledIn (columns : Columns) (header : List String) : Prop where
  address : TitledAt header "Address" columns.address
  code : TitledAt header "Quality" columns.code
  size : TitledAt header "Size" columns.size
  name : TitledAt header "Name" columns.name

variable {columns : Columns} {header : List String}

theorem position_eq_ok_iff_findIdx? {title : String} {i : Nat} : position header title = .ok i ↔
    (header.findIdx? fun field => Column.IsTitle title field) = some i := by
  have htest : (fun field => decide ((Text.trim field).map Char.toLower = title.map Char.toLower)) =
      fun field => decide (Column.IsTitle title field) :=
    funext fun field => decide_eq_decide.mpr Iff.rfl
  rw [position, htest]
  cases header.findIdx? fun field => Column.IsTitle title field <;> simp

theorem position_eq_ok_iff {title : String} {i : Nat} :
    position header title = .ok i ↔ TitledAt header title i := by
  rw [position_eq_ok_iff_findIdx?, List.findIdx?_eq_some_iff_getElem, TitledAt]
  constructor
  · rintro ⟨hlt, htitle, hbefore⟩
    refine ⟨⟨header[i], List.getElem?_eq_getElem hlt, of_decide_eq_true htitle⟩, ?_⟩
    intro j field hj hfield
    obtain ⟨-, rfl⟩ := List.getElem?_eq_some_iff.mp hfield
    simpa using hbefore j hj
  · rintro ⟨⟨field, hfield, htitle⟩, hbefore⟩
    obtain ⟨hlt, rfl⟩ := List.getElem?_eq_some_iff.mp hfield
    refine ⟨hlt, decide_eq_true htitle, fun j hj => ?_⟩
    simpa using hbefore j _ hj (List.getElem?_eq_getElem (hj.trans hlt))

theorem exists_titledAt_iff {title : String} :
    (∃ i, TitledAt header title i) ↔ ∃ field ∈ header, Column.IsTitle title field := by
  constructor
  · rintro ⟨i, ⟨field, hfield, htitle⟩, -⟩
    exact ⟨field, List.mem_of_getElem? hfield, htitle⟩
  · rintro ⟨field, hfield, htitle⟩
    have hfound : (header.findIdx? fun field => Column.IsTitle title field).isSome = true := by
      rw [List.findIdx?_isSome, List.any_eq_true]
      exact ⟨field, hfield, decide_eq_true htitle⟩
    obtain ⟨i, hi⟩ := Option.isSome_iff_exists.mp hfound
    exact ⟨i, position_eq_ok_iff.mp (position_eq_ok_iff_findIdx?.mpr hi)⟩

theorem ofHeader_eq_ok_iff : ofHeader header = .ok columns ↔ columns.TitledIn header := by
  simp only [ofHeader, bind_eq_ok_iff, position_eq_ok_iff, pure, Except.pure, Except.ok.injEq]
  constructor
  · rintro ⟨_, ha, _, hc, _, hs, _, hn, rfl⟩
    exact ⟨ha, hc, hs, hn⟩
  · rintro ⟨ha, hc, hs, hn⟩
    exact ⟨_, ha, _, hc, _, hs, _, hn, rfl⟩

/-- The columns are found exactly when the header holds all titles. -/
theorem exists_titledIn_iff : (∃ columns : Columns, columns.TitledIn header) ↔
    ∀ title ∈ Column.titles, ∃ field ∈ header, Column.IsTitle title field := by
  simp only [← exists_titledAt_iff]
  constructor
  · rintro ⟨columns, h⟩
    simpa [Column.titles, Column.title?] using
      ⟨⟨_, h.address⟩, ⟨_, h.code⟩, ⟨_, h.size⟩, ⟨_, h.name⟩⟩
  · intro h
    obtain ⟨⟨a, ha⟩, ⟨c, hc⟩, ⟨s, hs⟩, ⟨n, hn⟩⟩ := by
      simpa [Column.titles, Column.title?] using h
    exact ⟨⟨a, c, s, n⟩, ha, hc, hs, hn⟩

theorem titledIn_iff_findIdx? : columns.TitledIn header ↔
    (header.findIdx? fun field => Column.IsTitle "Address" field) = some columns.address ∧
      (header.findIdx? fun field => Column.IsTitle "Quality" field) = some columns.code ∧
      (header.findIdx? fun field => Column.IsTitle "Size" field) = some columns.size ∧
      (header.findIdx? fun field => Column.IsTitle "Name" field) = some columns.name := by
  simp only [← position_eq_ok_iff_findIdx?, position_eq_ok_iff]
  exact ⟨fun h => ⟨h.address, h.code, h.size, h.name⟩, fun ⟨ha, hc, hs, hn⟩ => ⟨ha, hc, hs, hn⟩⟩

instance (columns : Columns) (header : List String) : Decidable (columns.TitledIn header) :=
  decidable_of_iff _ titledIn_iff_findIdx?.symm

end Columns

/-! Rows -/

/-- A line is good: its fields reach all columns, its size is a machine word and its address an
address. -/
structure Columns.Fits (columns : Columns) (fields : List String) : Prop where
  address_reached : columns.address < fields.length
  code_reached : columns.code < fields.length
  size_reached : columns.size < fields.length
  name_reached : columns.name < fields.length
  size : ∃ field n, fields[columns.size]? = some field ∧ Text.IsDecimal (Text.trim field) n ∧
    n < 2 ^ 64
  address : ∃ field n, fields[columns.address]? = some field ∧
    parseAddress (Text.trim field) = .ok n

/-- An entry is made from the fields in the four columns, without the blanks around them. -/
structure FunctionEntry.ReadFrom (e : FunctionEntry) (columns : Columns) (fields : List String) :
    Prop where
  address : ∃ field, fields[columns.address]? = some field ∧
    parseAddress (Text.trim field) = .ok e.address
  evidence : ∃ field, fields[columns.code]? = some field ∧ e.evidence = .ofCode (Text.trim field)
  size : ∃ field, fields[columns.size]? = some field ∧ Text.IsDecimal (Text.trim field) e.size ∧
    e.size < 2 ^ 64
  symbol : ∃ field, fields[columns.name]? = some field ∧ e.symbol = Text.trim field

theorem fieldAt_eq_ok_iff {line column : Nat} {fields : List String} {s : String} :
    fieldAt line fields column = .ok s ↔ ∃ field, fields[column]? = some field ∧
      s = Text.trim field := by
  unfold fieldAt
  cases fields[column]? <;> simp [eq_comm]

section rows

variable {columns : Columns} {line : Nat} {fields : List String}

theorem rowOfFields_eq_ok_iff {e : FunctionEntry} :
    rowOfFields columns line fields = .ok e ↔ e.ReadFrom columns fields := by
  have hword : ∀ n, n ≤ Text.maxWord ↔ n < 2 ^ 64 := fun n => by
    rw [Text.maxWord]
    omega
  simp only [rowOfFields, bind_eq_ok_iff, mapError_eq_ok_iff, fieldAt_eq_ok_iff,
    Text.word_ten_eq_ok_iff, hword, pure, Except.pure, Except.ok.injEq]
  constructor
  · rintro ⟨_, ⟨sizeField, hs, rfl⟩, size, hsize, _, ⟨addressField, ha, rfl⟩, address, haddress,
      code, ⟨codeField, hc, hcode⟩, symbol, ⟨nameField, hn, hsymbol⟩, rfl⟩
    have hevidence : Evidence.ofCode code = .ofCode (Text.trim codeField) := by rw [hcode]
    exact ⟨⟨addressField, ha, haddress⟩, ⟨codeField, hc, hevidence⟩, ⟨sizeField, hs, hsize⟩,
      ⟨nameField, hn, hsymbol⟩⟩
  · rintro ⟨⟨addressField, ha, haddress⟩, ⟨codeField, hc, hevidence⟩, ⟨sizeField, hs, hsize⟩,
      ⟨nameField, hn, hsymbol⟩⟩
    refine ⟨Text.trim sizeField, ⟨sizeField, hs, rfl⟩, e.size, hsize, Text.trim addressField,
      ⟨addressField, ha, rfl⟩, e.address, haddress, Text.trim codeField, ⟨codeField, hc, rfl⟩,
      e.symbol, ⟨nameField, hn, hsymbol⟩, ?_⟩
    rw [← hevidence]

theorem exists_readFrom_iff : (∃ e : FunctionEntry, e.ReadFrom columns fields) ↔
    columns.Fits fields := by
  have hreached {column : Nat} {field : String} (h : fields[column]? = some field) :
      column < fields.length := (List.getElem?_eq_some_iff.mp h).1
  constructor
  · rintro ⟨e, ⟨af, ha, haddress⟩, ⟨cf, hc, -⟩, ⟨sf, hs, hsize⟩, nf, hn, -⟩
    exact ⟨hreached ha, hreached hc, hreached hs, hreached hn, ⟨sf, _, hs, hsize⟩,
      ⟨af, _, ha, haddress⟩⟩
  · rintro ⟨-, hc, -, hn, ⟨sf, size, hs, hsize⟩, af, address, ha, haddress⟩
    obtain ⟨cf, hcf⟩ : ∃ cf, fields[columns.code]? = some cf := ⟨_, List.getElem?_eq_getElem hc⟩
    obtain ⟨nf, hnf⟩ : ∃ nf, fields[columns.name]? = some nf := ⟨_, List.getElem?_eq_getElem hn⟩
    obtain ⟨evidence, hevidence⟩ : ∃ x, x = Evidence.ofCode (Text.trim cf) := exists_eq
    exact ⟨⟨address, evidence, size, Text.trim nf⟩, ⟨af, ha, haddress⟩, ⟨cf, hcf, hevidence⟩,
      ⟨sf, hs, hsize⟩, ⟨nf, hnf, rfl⟩⟩

/-- A line is read exactly when it is good. -/
theorem exists_rowOfFields_iff : (∃ e, rowOfFields columns line fields = .ok e) ↔
    columns.Fits fields := by
  simp only [rowOfFields_eq_ok_iff]
  exact exists_readFrom_iff

theorem isSome_rowOfFields_iff :
    (rowOfFields columns line fields).toOption.isSome = true ↔ columns.Fits fields := by
  simp only [Option.isSome_iff_exists, toOption_eq_some_iff]
  exact exists_rowOfFields_iff

instance (columns : Columns) (fields : List String) : Decidable (columns.Fits fields) :=
  decidable_of_iff ((rowOfFields columns 0 fields).toOption.isSome = true) isSome_rowOfFields_iff

end rows

/-- The line that an error is about. -/
def TableError.line? : TableError → Option Nat
  | noHeader | missingColumn _ => none
  | tooFewFields line _ | badSize line _ _ | badAddress line _ => some line

private theorem toString_text (s : String) : toString s = s := rfl

/-- The message of such an error starts with the number of the line. -/
theorem TableError.messages_of_line? {e : TableError} {line : Nat} (h : e.line? = some line) :
    ∃ rest, e.messages.head? = some (s!"Line {line}: " ++ rest) := by
  cases e with
  | noHeader | missingColumn => simp [line?] at h
  | tooFewFields line needed =>
    obtain rfl := Option.some.inj h
    refine ⟨s!"expected at least {needed} fields", congrArg some ?_⟩
    simp [← String.toList_inj, toString_text]
  | badSize line text cause =>
    obtain rfl := Option.some.inj h
    refine ⟨s!"invalid size '{text}'", congrArg some ?_⟩
    simp [← String.toList_inj, toString_text]
  | badAddress line cause =>
    obtain rfl := Option.some.inj h
    refine ⟨"bad address", congrArg some ?_⟩
    simp [← String.toList_inj, toString_text]

theorem line?_of_fieldAt_eq_error {line column : Nat} {fields : List String} {e : TableError}
    (h : fieldAt line fields column = .error e) : e.line? = some line := by
  unfold fieldAt at h
  split at h
  · simp at h
  · rw [← Except.error.inj h]
    rfl

theorem line?_of_mapError {α ε : Type} {f : ε → TableError} {line : Nat}
    (hf : ∀ cause, (f cause).line? = some line) {x : Except ε α} {e : TableError}
    (h : x.mapError f = .error e) : e.line? = some line := by
  cases x with
  | ok a => simp [Except.mapError] at h
  | error cause =>
    rw [← Except.error.inj h]
    exact hf cause

/-- Whatever is wrong with a row, the error is about its line. -/
theorem line?_of_rowOfFields_eq_error {columns : Columns} {line : Nat} {fields : List String}
    {e : TableError} (h : rowOfFields columns line fields = .error e) : e.line? = some line := by
  simp only [rowOfFields, bind_eq_error_iff, pure, Except.pure, reduceCtorEq, and_false,
    exists_false, or_false] at h
  rcases h with h | ⟨_, -, h | ⟨_, -, h | ⟨_, -, h | ⟨_, -, h | ⟨_, -, h⟩⟩⟩⟩⟩
  · exact line?_of_fieldAt_eq_error h
  · exact line?_of_mapError (fun _ => rfl) h
  · exact line?_of_fieldAt_eq_error h
  · exact line?_of_mapError (fun _ => rfl) h
  · exact line?_of_fieldAt_eq_error h
  · exact line?_of_fieldAt_eq_error h

/-! Whole tables -/

/-- The first line of the text that is not blank titles the columns. -/
def Columns.HeadedBy (columns : Columns) (text : String) (first : Nat) : Prop :=
  ∃ header, Text.FirstFilledAt text first header ∧ columns.TitledIn (Csv.fields header)

/-- The line with this number is good, unless it is blank. -/
def Columns.FitAt (columns : Columns) (text : String) (number : Nat) : Prop :=
  ∀ line, Text.FilledAt text number line → columns.Fits (Csv.fields line)

section tables

variable {text : String} {first : Nat} {columns : Columns}

theorem Columns.HeadedBy.laterLines (h : columns.HeadedBy text first) :
    Text.LaterLines text first (filledLines text).tail := by
  obtain ⟨header, hfirst, -⟩ := h
  obtain ⟨rows, hrows, hlater⟩ := exists_filledLines_eq hfirst
  rwa [hrows]

/-- Under its header the lines of a table are read one by one. -/
theorem Columns.HeadedBy.functionsOfCsv_eq (h : columns.HeadedBy text first) :
    functionsOfCsv text =
      (filledLines text).tail.mapM fun row => rowOfFields columns row.2 (Csv.fields row.1) := by
  obtain ⟨header, hfirst, htitled⟩ := h
  obtain ⟨rows, hrows, -⟩ := exists_filledLines_eq hfirst
  rw [functionsOfCsv, hrows]
  simp only [Columns.ofHeader_eq_ok_iff.mpr htitled]
  rfl

theorem exists_headedBy_of_ok {entries : List FunctionEntry}
    (h : functionsOfCsv text = .ok entries) :
    ∃ (first : Nat) (columns : Columns), columns.HeadedBy text first := by
  unfold functionsOfCsv at h
  split at h
  · simp at h
  · rename_i header first rows hrows
    obtain ⟨columns, hcolumns, -⟩ := bind_eq_ok_iff.mp h
    exact ⟨first, columns, header, firstFilledAt_of_filledLines_eq hrows,
      Columns.ofHeader_eq_ok_iff.mp hcolumns⟩

theorem headedBy_iff_head? : columns.HeadedBy text first ↔
    ∃ row, row ∈ (filledLines text).head? ∧
      row.2 = first ∧ columns.TitledIn (Csv.fields row.1) := by
  constructor
  · rintro ⟨header, hfirst, htitled⟩
    obtain ⟨rows, hrows, -⟩ := exists_filledLines_eq hfirst
    exact ⟨(header, first), by simp [hrows], rfl, htitled⟩
  · rintro ⟨⟨header, _⟩, hhead, rfl, htitled⟩
    obtain ⟨rows, hrows⟩ := List.head?_eq_some_iff.mp hhead
    exact ⟨header, firstFilledAt_of_filledLines_eq hrows, htitled⟩

instance (columns : Columns) (text : String) (first : Nat) :
    Decidable (columns.HeadedBy text first) :=
  decidable_of_iff _ headedBy_iff_head?.symm

theorem exists_headedBy_iff : (∃ columns : Columns, columns.HeadedBy text first) ↔
    ∃ header, Text.FirstFilledAt text first header ∧
      ∀ title ∈ Column.titles, ∃ field ∈ Csv.fields header, Column.IsTitle title field := by
  simp only [Columns.HeadedBy, ← Columns.exists_titledIn_iff, ← exists_and_left]
  exact exists_comm

theorem Text.LaterLines.fits {rows : List (String × Nat)} (hrows : LaterLines text first rows)
    (h : ∀ number, first < number → columns.FitAt text number) :
    ∀ row ∈ rows, columns.Fits (Csv.fields row.1) := by
  rintro ⟨line, number⟩ hrow
  obtain ⟨hlt, hfilled⟩ := (hrows.mem_iff line number).mp hrow
  exact h number hlt line hfilled

theorem fitAt_iff {number : Nat} : columns.FitAt text number ↔
    ∀ row ∈ filledLines text, row.2 = number → columns.Fits (Csv.fields row.1) := by
  constructor
  · rintro h ⟨line, _⟩ hrow rfl
    exact h line (mem_filledLines.mp hrow)
  · intro h line hfilled
    exact h (line, number) (mem_filledLines.mpr hfilled) rfl

instance (columns : Columns) (text : String) (number : Nat) :
    Decidable (columns.FitAt text number) :=
  decidable_of_iff _ fitAt_iff.symm

/-- A table is read exactly when all its lines are good. -/
theorem exists_functionsOfCsv_iff (h : columns.HeadedBy text first) :
    (∃ entries, functionsOfCsv text = .ok entries) ↔
      ∀ number, first < number → columns.FitAt text number := by
  rw [h.functionsOfCsv_eq, exists_mapM_ok_iff]
  simp only [exists_rowOfFields_iff]
  refine ⟨fun hfits number hlt line hfilled => ?_, h.laterLines.fits⟩
  exact hfits (line, number) ((h.laterLines.mem_iff line number).mpr ⟨hlt, hfilled⟩)

/-- Each of its lines gives one entry. -/
theorem exists_laterLines_of_ok (h : columns.HeadedBy text first) {entries : List FunctionEntry}
    (hok : functionsOfCsv text = .ok entries) :
    ∃ rows, Text.LaterLines text first rows ∧
      List.Forall₂ (fun row e => e.ReadFrom columns (Csv.fields row.1)) rows entries := by
  rw [h.functionsOfCsv_eq, mapM_eq_ok_iff] at hok
  simp only [rowOfFields_eq_ok_iff] at hok
  exact ⟨_, h.laterLines, hok⟩

/-- The first line that is not good decides the error. -/
theorem exists_error_of_firstBad (h : columns.HeadedBy text first) {number : Nat}
    (hlt : first < number) (hbad : ¬ columns.FitAt text number)
    (hfits : ∀ k, first < k → k < number → columns.FitAt text k) :
    ∃ e, functionsOfCsv text = .error e ∧ e.line? = some number := by
  have hread := h.functionsOfCsv_eq
  have hrows := h.laterLines
  generalize (filledLines text).tail = rows at hread hrows
  obtain ⟨line, hfilled, hnot⟩ : ∃ line, Text.FilledAt text number line ∧
      ¬ columns.Fits (Csv.fields line) := by
    simpa [Columns.FitAt] using hbad
  obtain ⟨before, after, rfl⟩ :=
    List.append_of_mem ((hrows.mem_iff line number).mpr ⟨hlt, hfilled⟩)
  have hgood : ∀ row ∈ before, ∃ e,
      rowOfFields columns row.2 (Csv.fields row.1) = .ok e := by
    rintro ⟨other, k⟩ hrow
    have hk : k < number :=
      (List.pairwise_append.mp hrows.increasing).2.2 _ hrow _ List.mem_cons_self
    obtain ⟨hfirst, hother⟩ := (hrows.mem_iff other k).mp (List.mem_append_left _ hrow)
    exact exists_rowOfFields_iff.mpr (hfits k hfirst hk other hother)
  cases he : rowOfFields columns number (Csv.fields line) with
  | ok e => exact absurd (exists_rowOfFields_iff.mp ⟨e, he⟩) hnot
  | error e =>
    refine ⟨e, ?_, line?_of_rowOfFields_eq_error he⟩
    rw [hread]
    refine mapM_eq_error_of_first ?_ ?_ after
    · exact hgood
    · exact he

end tables

/-- How the reading of a table of lines ends. It succeeds exactly when the first line that is not blank
titles the four columns and every later one that is not blank is good; there is then one entry for
each of them, in their order. Otherwise the error names the first line that is not good, where blank
lines count. -/
theorem functionsOfCsv_outcome (text : String) :
    ((∃ entries, functionsOfCsv text = .ok entries) ↔
      ∃ (first : Nat) (columns : Columns), columns.HeadedBy text first ∧
        ∀ number, first < number → columns.FitAt text number) ∧
    (∀ first, (∃ columns : Columns, columns.HeadedBy text first) ↔
      ∃ header, Text.FirstFilledAt text first header ∧
        ∀ title ∈ ["Address", "Quality", "Size", "Name"],
          ∃ field ∈ Csv.fields header, Column.IsTitle title field) ∧
    ∀ (first : Nat) (columns : Columns), columns.HeadedBy text first →
      (∀ entries, functionsOfCsv text = .ok entries →
        ∃ rows, Text.LaterLines text first rows ∧
          List.Forall₂ (fun row e => e.ReadFrom columns (Csv.fields row.1)) rows entries) ∧
      ∀ number, first < number → ¬ columns.FitAt text number →
        (∀ k, first < k → k < number → columns.FitAt text k) →
        ∃ e, functionsOfCsv text = .error e ∧ e.line? = some number ∧
          ∃ rest, e.messages.head? = some (s!"Line {number}: " ++ rest) := by
  refine ⟨?_, fun first => exists_headedBy_iff, fun first columns h => ⟨?_, ?_⟩⟩
  · constructor
    · intro hok
      obtain ⟨first, columns, h⟩ := exists_headedBy_of_ok hok.choose_spec
      exact ⟨first, columns, h, (exists_functionsOfCsv_iff h).mp hok⟩
    · rintro ⟨first, columns, h, hfits⟩
      exact (exists_functionsOfCsv_iff h).mpr hfits
  · exact fun entries => exists_laterLines_of_ok h
  · intro number hlt hbad hfits
    obtain ⟨e, he, hline⟩ := exists_error_of_firstBad h hlt hbad hfits
    exact ⟨e, he, hline, TableError.messages_of_line? hline⟩

/-- Two blank lines, a header, a good line and a blank one. -/
def goodLines : String := "\n \t\r\nsize, ADDRESS ,Note,quality,\"Name\"\n+08,0x1F,,O, a \n\n"

/-- The same lines, then one with a bad address and one with too few fields. -/
def brokenLines : String := goodLines ++ "12,zz,,U,b\n7,,\n"

def noteColumns : Columns where
  address := 1
  code := 3
  size := 0
  name := 4

theorem functionsOfCsv_outcome_brokenLines :
    noteColumns.HeadedBy goodLines 3 ∧
      functionsOfCsv goodLines = .ok [⟨0x1F, .decompiled, 8, "a"⟩] ∧
      (∃ rows, Text.LaterLines goodLines 3 rows ∧ List.Forall₂
        (fun row e => FunctionEntry.ReadFrom e noteColumns (Csv.fields row.1)) rows
        [⟨0x1F, .decompiled, 8, "a"⟩]) ∧
      noteColumns.HeadedBy brokenLines 3 ∧ noteColumns.FitAt brokenLines 4 ∧
      noteColumns.FitAt brokenLines 5 ∧ ¬ noteColumns.FitAt brokenLines 6 ∧
      ∃ e, functionsOfCsv brokenLines = .error e ∧ e.line? = some 6 ∧
        ∃ rest, e.messages.head? = some (s!"Line {6}: " ++ rest) := by
  have hgood : noteColumns.HeadedBy goodLines 3 := by decide +kernel
  have hbroken : noteColumns.HeadedBy brokenLines 3 := by decide +kernel
  have hok : functionsOfCsv goodLines = .ok [⟨0x1F, .decompiled, 8, "a"⟩] := by
    rw [hgood.functionsOfCsv_eq]
    decide +kernel
  have hfour : noteColumns.FitAt brokenLines 4 := by decide +kernel
  have hfive : noteColumns.FitAt brokenLines 5 := by decide +kernel
  have hsix : ¬ noteColumns.FitAt brokenLines 6 := by decide +kernel
  refine ⟨hgood, hok, ((functionsOfCsv_outcome goodLines).2.2 3 _ hgood).1 _ hok, hbroken, hfour,
    hfive, hsix, ((functionsOfCsv_outcome brokenLines).2.2 3 _ hbroken).2 6 (by decide) hsix ?_⟩
  intro k hfirst hk
  obtain rfl | rfl : k = 4 ∨ k = 5 := by omega
  · exact hfour
  · exact hfive

end DecompTracker
