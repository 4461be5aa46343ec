import DecompTracker.Project.Inputs
import DecompTracker.Proofs.PairedLists
import DecompTracker.Proofs.Results
import DecompTracker.Proofs.Tables.Csv
import DecompTracker.Proofs.Text.Lines
import DecompTracker.Proofs.Text.Numeral
import Mathlib.Data.List.Perm.Subperm

/-! The two ways to write a function table. Lines of comma-separated fields give the entries that
the same rows give in a JSON table, up to the blanks around the symbols, whatever the order of the
columns, the columns in between, the quoting and the blank lines. -/
namespace DecompTracker

/-- What a column of a function table is for. -/
inductive Column where
  | address
  | code
  | size
  | name
  /-- A column that the table may hold besides. -/
  | other
  deriving DecidableEq

namespace Column

def title? : Column → Option String
  | address => some "Address"
  | code => some "Quality"
  | size => some "Size"
  | name => some "Name"
  | other => none

def titles : List String := [address, code, size, name].filterMap title?

/-- Blanks around a field of the header and the case of its ASCII letters do not matter. -/
def IsTitle (title field : String) : Prop :=
  (Text.trim field).map Char.toLower = title.map Char.toLower

theorem map_toLower_eq_iff {s t : String} : s.map Char.toLower = t.map Char.toLower ↔
    s.toList.map Char.toLower = t.toList.map Char.toLower := by
  rw [← String.toList_inj, String.toList_map, String.toList_map]

instance (title field : String) : Decidable (IsTitle title field) :=
  decidable_of_iff _ map_toLower_eq_iff.symm

/-- The header may call a column by its title, and a column without one by anything that is no
title. -/
def Titled (column : Column) (field : String) : Prop :=
  match column.title? with
  | some title => IsTitle title field
  | none => ∀ title ∈ titles, ¬ IsTitle title field

instance : ∀ (column : Column) (field : String), Decidable (column.Titled field)
  | address, field | code, field | size, field | name, field =>
    inferInstanceAs (Decidable (IsTitle _ field))
  | other, field => inferInstanceAs (Decidable (∀ title ∈ titles, ¬ IsTitle title field))

theorem mem_titles {column : Column} {title : String} (h : column.title? = some title) :
    title ∈ titles := by
  apply List.mem_filterMap.mpr
  refine ⟨column, ?_, h⟩
  cases column <;> simp [title?] at h ⊢

/-- Titles differ in more than the case of their letters. -/
theorem eq_of_title_eq {column named : Column} {title title' : String}
    (h : column.title? = some title) (h' : named.title? = some title')
    (he : title.map Char.toLower = title'.map Char.toLower) : column = named := by
  cases column <;> cases named <;> simp only [title?, Option.some.injEq, reduceCtorEq] at h h' <;>
    first
    | rfl
    | rw [← h, ← h', map_toLower_eq_iff] at he
      revert he
      decide +kernel

theorem Titled.isTitle_iff {column named : Column} {field title : String}
    (h : column.Titled field) (hnamed : named.title? = some title) :
    IsTitle title field ↔ column = named := by
  unfold Titled at h
  cases ht : column.title? with
  | none =>
    rw [ht] at h
    have hne : column ≠ named := by
      intro he
      rw [he, hnamed] at ht
      simp at ht
    exact iff_of_false (h title (mem_titles hnamed)) hne
  | some own =>
    rw [ht] at h
    constructor
    · intro hfield
      exact eq_of_title_eq ht hnamed (h.symm.trans hfield)
    · intro he
      rw [he, hnamed] at ht
      rwa [Option.some.inj ht]

end Column

/-- The cell of a row in a column. -/
def FunctionRow.Shows (row : FunctionRow) : Column → String → Prop
  | .address, cell => cell = row.address
  | .code, cell => cell = row.code
  | .size, cell => cell = Nat.repr row.size
  | .name, cell => cell = row.symbol
  | .other, _ => True

instance (row : FunctionRow) : ∀ (column : Column) (cell : String), Decidable (row.Shows column cell)
  | .address, _ | .code, _ | .size, _ | .name, _ => inferInstanceAs (Decidable (_ = _))
  | .other, _ => inferInstanceAs (Decidable True)

/-- The fields of a table with the given rows: a header that titles the four columns, in any order
and among others, and the cells of each row in the order of the columns. A field stands in one
line. -/
structure FieldTable (rows : List FunctionRow) where
  columns : List Column
  header : List String
  cells : List (List String)
  named : ∀ column, column ≠ .other → column ∈ columns
  titled : List.Forall₂ Column.Titled columns header
  shows : List.Forall₂ (fun row fields => List.Forall₂ row.Shows columns fields) rows cells
  unbroken : ∀ fields ∈ header :: cells, ∀ field ∈ fields,
    '\n' ∉ field.toList ∧ '\r' ∉ field.toList

/-- Each line of fields is written in a line of the text, in their order and among blank lines. -/
def FieldTable.WrittenIn {rows : List FunctionRow} (table : FieldTable rows) (text : String) :
    Prop :=
  ∃ lines, List.Forall₂ (fun fields line => Csv.WrittenLine (fields.map String.toList) line)
    (table.header :: table.cells) lines ∧ Text.HoldsLines lines text.toList

/-! The header -/

namespace Columns

/-- Where each named column stands among the columns. -/
structure Locate (columns : List Column) (places : Columns) : Prop where
  address : columns[places.address]? = some .address
  code : columns[places.code]? = some .code
  size : columns[places.size]? = some .size
  name : columns[places.name]? = some .name

variable {columns : List Column} {header : List String}

theorem findIdx?_header (h : List.Forall₂ Column.Titled columns header) {named : Column}
    {title : String} (hnamed : named.title? = some title) :
    (header.findIdx? fun field => (Text.trim field).map Char.toLower = title.map Char.toLower) =
      columns.findIdx? fun column => column = named := by
  induction h with
  | nil => rfl
  | @cons column field _ _ hfield _ ih =>
    have htitle : (Text.trim field).map Char.toLower = title.map Char.toLower ↔ column = named :=
      hfield.isTitle_iff hnamed
    rw [List.findIdx?_cons, List.findIdx?_cons, ih, decide_eq_decide.mpr htitle]

theorem exists_position (h : List.Forall₂ Column.Titled columns header) (named : Column)
    {title : String} (hnamed : named.title? = some title) (hmem : named ∈ columns) :
    ∃ i, position header title = .ok i ∧ columns[i]? = some named := by
  have hfound : (columns.findIdx? fun column => column = named).isSome = true := by
    rw [List.findIdx?_isSome, List.any_eq_true]
    exact ⟨named, hmem, by simp⟩
  obtain ⟨i, hi⟩ := Option.isSome_iff_exists.mp hfound
  obtain ⟨hlt, hcolumn, -⟩ := List.findIdx?_eq_some_iff_getElem.mp hi
  refine ⟨i, ?_, ?_⟩
  · rw [position, findIdx?_header h hnamed, hi]
  · rw [List.getElem?_eq_getElem hlt, of_decide_eq_true hcolumn]

/-- The named columns are found in the header, wherever they stand. -/
theorem exists_ofHeader (h : List.Forall₂ Column.Titled columns header)
    (hnamed : ∀ column, column ≠ .other → column ∈ columns) :
    ∃ places, ofHeader header = .ok places ∧ places.Locate columns := by
  obtain ⟨a, ha, hain⟩ := exists_position h .address rfl (hnamed _ (by decide))
  obtain ⟨c, hc, hcin⟩ := exists_position h .code rfl (hnamed _ (by decide))
  obtain ⟨s, hs, hsin⟩ := exists_position h .size rfl (hnamed _ (by decide))
  obtain ⟨n, hn, hnin⟩ := exists_position h .name rfl (hnamed _ (by decide))
  refine ⟨⟨a, c, s, n⟩, ?_, ⟨hain, hcin, hsin, hnin⟩⟩
  rw [ofHeader, ha, hc, hs, hn]
  rfl

end Columns

/-! Rows -/

/-- An entry whose symbol has no blanks around it. -/
def FunctionEntry.trimmed (e : FunctionEntry) : FunctionEntry :=
  { e with symbol := Text.trim e.symbol }

theorem parseAddress_trim (text : String) :
    (parseAddress (Text.trim text)).toOption = (parseAddress text).toOption := by
  have hchars : Text.trimChars (Text.trim text).toList = Text.trimChars text.toList := by
    rw [Text.trim, String.toList_ofList, Text.trimChars_trimChars]
  unfold parseAddress
  rw [hchars]
  split <;> rfl

theorem Evidence.ofCode_trim (code : String) : ofCode (Text.trim code) = ofCode code := by
  rw [ofCode, ofCode, Text.trim_trim]

theorem trim_repr (n : Nat) : Text.trim n.repr = n.repr := by
  have hdigit (c : Char) (hc : c ∈ Nat.toDigits 10 n) : Text.isBlank c = false := by
    have hrange := Text.isDigit_iff_toNat.mp (Nat.isDigit_of_mem_toDigits (by decide) (by decide) hc)
    simp only [Text.isBlank, Bool.or_eq_false_iff, Bool.and_eq_false_imp, decide_eq_true_eq,
      decide_eq_false_iff_not, beq_eq_false_iff_ne]
    omega
  rw [Text.trim, Nat.toList_repr, Text.trimChars_eq_self hdigit, ← Nat.toList_repr,
    String.ofList_toList]

theorem word_repr {n : Nat} (hn : n ≤ Text.maxWord) : Text.word 10 n.repr = .ok n := by
  rw [Text.word, Nat.toList_repr, Text.wordOfChars_toDigits hn]

theorem fieldAt_of_shows {columns : List Column} {row : FunctionRow} {fields : List String}
    (h : List.Forall₂ row.Shows columns fields) {i : Nat} {column : Column}
    (hi : columns[i]? = some column) (line : Nat) :
    ∃ cell, row.Shows column cell ∧ fieldAt line fields i = .ok (Text.trim cell) := by
  obtain ⟨hlt, rfl⟩ := List.getElem?_eq_some_iff.mp hi
  have hlt' : i < fields.length := h.length_eq ▸ hlt
  refine ⟨fields[i], h.get hlt hlt', ?_⟩
  rw [fieldAt, List.getElem?_eq_getElem hlt']

/-- The cells of a row give its entry, with the blanks around the symbol taken off. -/
theorem rowOfFields_of_shows {columns : List Column} {places : Columns} {row : FunctionRow}
    {fields : List String} (hplaces : places.Locate columns)
    (h : List.Forall₂ row.Shows columns fields) (hsize : row.size ≤ Text.maxWord) (line : Nat) :
    (rowOfFields places line fields).toOption =
      row.entry.toOption.map FunctionEntry.trimmed := by
  obtain ⟨_, rfl, hs⟩ := fieldAt_of_shows h hplaces.size line
  obtain ⟨_, rfl, ha⟩ := fieldAt_of_shows h hplaces.address line
  obtain ⟨_, rfl, hc⟩ := fieldAt_of_shows h hplaces.code line
  obtain ⟨_, rfl, hn⟩ := fieldAt_of_shows h hplaces.name line
  have haddress := parseAddress_trim row.address
  rw [rowOfFields, hs, ha, hc, hn]
  simp only [trim_repr, word_repr hsize, FunctionRow.entry, Except.mapError, bind, Except.bind, pure,
    Except.pure]
  cases htrimmed : parseAddress (Text.trim row.address) with
  | error =>
    cases hwhole : parseAddress row.address with
    | error => rfl
    | ok => simp [htrimmed, hwhole, Except.toOption] at haddress
  | ok address =>
    cases hwhole : parseAddress row.address with
    | error => simp [htrimmed, hwhole, Except.toOption] at haddress
    | ok address' =>
      obtain rfl : address = address' := by
        simpa [htrimmed, hwhole, Except.toOption] using haddress
      simp [Except.toOption, FunctionEntry.trimmed, Evidence.ofCode_trim]

/-! Lines -/

theorem filledLines_map_fst (text : String) :
    (filledLines text).map Prod.fst =
      ((Text.lineChars text.toList).filter fun line => !line.all Text.isBlank).map String.ofList := by
  have hfst : (fun l : String × Nat => !Text.allBlank l.1) =
      (fun line => !Text.allBlank line) ∘ Prod.fst := rfl
  rw [filledLines, hfst, ← List.filter_map, List.zipIdx_map_fst, Text.lines, List.filter_map]
  congr 2
  funext line
  simp [Text.allBlank]

/-- Reading lines gives back the fields that were written in them. -/
theorem map_fields_of_writtenLine {table : List (List String)} {lines : List (List Char)}
    (h : List.Forall₂ (fun fields line => Csv.WrittenLine (fields.map String.toList) line) table
      lines) : (lines.map String.ofList).map Csv.fields = table := by
  induction h with
  | nil => rfl
  | cons hline _ ih =>
    rw [List.map_cons, List.map_cons, ih]
    simp [Csv.fields, hline.fieldsFrom_eq]

namespace FieldTable

variable {rows : List FunctionRow}

theorem length_eq (table : FieldTable rows) {fields : List String}
    (h : fields ∈ table.header :: table.cells) : table.columns.length = fields.length := by
  rcases List.mem_cons.mp h with rfl | h
  · exact table.titled.length_eq
  · obtain ⟨row, -, hshows⟩ := exists_of_forall₂_right table.shows fields h
    exact hshows.length_eq

/-- A line of a table holds a comma, because there are several columns. -/
theorem isFilledLine (table : FieldTable rows) {fields : List String}
    (hfields : fields ∈ table.header :: table.cells) {line : List Char}
    (h : Csv.WrittenLine (fields.map String.toList) line) : Text.IsFilledLine line := by
  have hcolumns : 2 ≤ table.columns.length := by
    have hsub : [Column.address, .code] ⊆ table.columns := by
      simp [table.named]
    exact (List.subperm_of_subset (by decide) hsub).length_le
  have hcomma : ',' ∈ line := by
    apply h.comma_mem
    rw [List.length_map, ← table.length_eq hfields]
    exact hcolumns
  constructor
  · apply h.not_mem (by decide) (by decide)
    simpa using fun field hfield => (table.unbroken fields hfields field hfield).1
  · apply h.not_mem (by decide) (by decide)
    simpa using fun field hfield => (table.unbroken fields hfields field hfield).2
  · exact ⟨',', hcomma, by decide⟩

/-- The lines of the text that hold something are the lines of the table. -/
theorem WrittenIn.map_fields {table : FieldTable rows} {text : String} (h : table.WrittenIn text) :
    (filledLines text).map (fun l => Csv.fields l.1) = table.header :: table.cells := by
  obtain ⟨lines, hwritten, hlines⟩ := h
  have hfilled : ∀ line ∈ lines, Text.IsFilledLine line := by
    intro line hline
    obtain ⟨fields, hfields, hwrites⟩ := exists_of_forall₂_right hwritten line hline
    exact table.isFilledLine hfields hwrites
  have hread : (fun l : String × Nat => Csv.fields l.1) = Csv.fields ∘ Prod.fst := rfl
  rw [hread, ← List.map_map, filledLines_map_fst, hlines.filter_lineChars hfilled,
    map_fields_of_writtenLine hwritten]

/-- Reading the text reads each row, and nothing else. -/
theorem toOption_functionsOfCsv (table : FieldTable rows)
    (hsize : ∀ row ∈ rows, row.size ≤ Text.maxWord) {text : String} (h : table.WrittenIn text) :
    (functionsOfCsv text).toOption =
      (rows.mapM FunctionRow.entry).toOption.map (List.map FunctionEntry.trimmed) := by
  have hfields := h.map_fields
  obtain ⟨places, hplaces, hlocate⟩ := Columns.exists_ofHeader table.titled table.named
  unfold functionsOfCsv
  cases hl : filledLines text with
  | nil => simp [hl] at hfields
  | cons first rest =>
    obtain ⟨headerLine, number⟩ := first
    rw [hl, List.map_cons, List.cons.injEq] at hfields
    obtain ⟨hheader, hcells⟩ := hfields
    have hrows : List.Forall₂ (fun l row => (rowOfFields places l.2 (Csv.fields l.1)).toOption =
        row.entry.toOption.map FunctionEntry.trimmed) rest rows := by
      have hshows := table.shows
      rw [← hcells, List.forall₂_map_right_iff] at hshows
      have hsized := (List.forall₂_and_left rows rest).mpr ⟨hsize, hshows⟩
      apply List.Forall₂.flip
      exact hsized.imp fun row l hrow => rowOfFields_of_shows hlocate hrow.2 hrow.1 l.2
    simp only [hheader, hplaces]
    exact toOption_mapM_of_forall₂ hrows

end FieldTable

/-- A table of fields is read exactly when every row has an entry. It then gives these entries in
their order, the blanks around the symbols taken off, and the JSON table of the same rows gives the
same. -/
theorem functionsOfCsv_agrees_with_rows {rows : List FunctionRow} (table : FieldTable rows)
    (hsize : ∀ row ∈ rows, row.size ≤ Text.maxWord) {text : String} (h : table.WrittenIn text) :
    ((∃ entries, functionsOfCsv text = .ok entries) ↔
      ∀ row ∈ rows, ∃ entry, row.entry = .ok entry) ∧
    (∀ entries, rows.mapM FunctionRow.entry = .ok entries →
      functionsOfCsv text = .ok (entries.map FunctionEntry.trimmed)) ∧
    ∀ path json, JsonForm.ofText? json = some rows →
      (functionsOfCsv text).toOption =
        (Project.entriesOfRows path json).toOption.map (List.map FunctionEntry.trimmed) := by
  have hread := table.toOption_functionsOfCsv hsize h
  refine ⟨?_, fun entries hentries => ?_, fun path json hjson => ?_⟩
  · rw [← exists_mapM_ok_iff]
    simp only [← toOption_eq_some_iff, hread, Option.map_eq_some_iff]
    constructor
    · intro hsome
      obtain ⟨_, entries, hentries, -⟩ := hsome
      exact ⟨entries, hentries⟩
    · intro hsome
      obtain ⟨entries, hentries⟩ := hsome
      exact ⟨_, entries, hentries, rfl⟩
  · rw [← toOption_eq_some_iff, hread, toOption_eq_some_iff.mpr hentries, Option.map_some]
  · rw [hread, Project.entriesOfRows, hjson]
    dsimp only
    cases rows.mapM FunctionRow.entry <;> rfl

/-- Two rows, with blanks, commas and quotes in their texts. -/
def ventRows : List FunctionRow :=
  [⟨"0x1F ", " O ", 8, " Fire::vent(a, \"b\") "⟩, ⟨"7100000020", "", 0, "_ZN3RedC1Ev"⟩]

def ventTable : FieldTable ventRows where
  columns := [.other, .name, .size, .address, .code]
  header := ["Note", " name ", "sIZE", "address", "Quality"]
  cells := [["", " Fire::vent(a, \"b\") ", "8", "0x1F ", " O "],
    ["seen, twice", "_ZN3RedC1Ev", "0", "7100000020", ""]]
  named column h := by cases column <;> simp_all
  titled := by decide +kernel
  shows := by decide +kernel
  unbroken := by simp

def headerLine : String := "Note, name ,sIZE,\"address\",Quality"
def ventLine : String := ",\" Fire::vent(a, \"\"b\"\") \",8,0x1F , O "
def constructorLine : String := "\"seen, twice\",_ZN3RedC1Ev,0,7100000020,\"\""

/-- The lines of the table with both ways to end a line, and with blank lines. -/
def ventText : String :=
  headerLine ++ ("\r\n" ++ (" \t\n" ++ (ventLine ++ ("\n" ++ (constructorLine ++ "\r\n\n")))))

def ventJson : String :=
  "[\x7b\"address\":\"0x1F \",\"quality\":\" O \",\"size\":8," ++
  "\"name\":\" Fire::vent(a, \\\"b\\\") \"\x7d," ++
  "[\"7100000020\",\"\",0,\"_ZN3RedC1Ev\"]]"

theorem ventTable_writtenIn : ventTable.WrittenIn ventText := by
  refine ⟨[headerLine.toList, ventLine.toList, constructorLine.toList],
    .cons ?header (.cons ?vent (.cons ?constructor .nil)), ?lines⟩
  case header =>
    exact .cons (.bare (by decide) (by decide)) <| .cons (.bare (by decide) (by decide)) <|
      .cons (.bare (by decide) (by decide)) <| .cons .quoted <|
      .last (.bare (by decide) (by decide))
  case vent =>
    exact .cons (.bare (by decide) (by decide)) <| .cons .quoted <|
      .cons (.bare (by decide) (by decide)) <| .cons (.bare (by decide) (by decide)) <|
      .last (.bare (by decide) (by decide))
  case constructor =>
    exact .cons .quoted <| .cons (.bare (by decide) (by decide)) <|
      .cons (.bare (by decide) (by decide)) <| .cons (.bare (by decide) (by decide)) <|
      .last .quoted
  case lines =>
    have hblank : Text.IsBlankLine [' ', '\t'] := by simp [Text.IsBlankLine, Text.isBlank]
    have hempty : Text.IsBlankLine [] := by simp [Text.IsBlankLine]
    have hreturn : "\r\n".toList = ['\r', '\n'] := rfl
    have hblanks : " \t\n".toList = [' ', '\t', '\n'] := rfl
    have hfeed : "\n".toList = ['\n'] := rfl
    have hend : "\r\n\n".toList = ['\r', '\n', '\n'] := rfl
    simp only [ventText, String.toList_append, hreturn, hblanks, hfeed, hend, List.cons_append,
      List.nil_append]
    exact .endedByReturn _ (.blank hblank (.ended _ (.endedByReturn _ (.blank hempty
      (.lastBlank hempty)))))

theorem functionsOfCsv_agrees_with_rows_ventTable :
    ventTable.WrittenIn ventText ∧ JsonForm.ofText? ventJson = some ventRows ∧
      functionsOfCsv ventText = .ok [⟨0x1F, .decompiled, 8, "Fire::vent(a, \"b\")"⟩,
        ⟨0x7100000020, .other, 0, "_ZN3RedC1Ev"⟩] ∧
      (functionsOfCsv ventText).toOption =
        (Project.entriesOfRows ⟨"functions.json"⟩ ventJson).toOption.map
          (List.map FunctionEntry.trimmed) := by
  have hjson : JsonForm.ofText? ventJson = some ventRows := by decide +kernel
  have hagree := functionsOfCsv_agrees_with_rows ventTable (by decide) ventTable_writtenIn
  refine ⟨ventTable_writtenIn, hjson, ?_, hagree.2.2 _ _ hjson⟩
  rw [hagree.2.1 [⟨0x1F, .decompiled, 8, " Fire::vent(a, \"b\") "⟩,
    ⟨0x7100000020, .other, 0, "_ZN3RedC1Ev"⟩] (by decide +kernel)]
  decide +kernel

end DecompTracker
