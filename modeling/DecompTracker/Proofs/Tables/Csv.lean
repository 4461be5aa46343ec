import DecompTracker.Tables.Csv
import Mathlib.Data.List.Forall2

/-! Lines of comma-separated fields. A field is written between quotes, with its own quotes doubled,
or as it is when it holds neither a comma nor a quote; reading a line gives back the fields that were
written in it. Any line at all is split at the commas that an even number of quotes stands before. -/
namespace DecompTracker.Csv

/-- Every quote twice. -/
def doubled (field : List Char) : List Char :=
  field.flatMap fun c => if c = '"' then ['"', '"'] else [c]

/-- The ways to write a field. -/
inductive Written (field : List Char) : List Char → Prop where
  | bare (hcomma : ',' ∉ field) (hquote : '"' ∉ field) : Written field field
  | quoted : Written field ('"' :: (doubled field ++ ['"']))

/-- The ways to write fields in a line, each field in a way of its own. -/
inductive WrittenLine : List (List Char) → List Char → Prop where
  | last {field cell : List Char} (h : Written field cell) : WrittenLine [field] cell
  | cons {field cell : List Char} (h : Written field cell) {fields : List (List Char)}
    {line : List Char} (rest : WrittenLine fields line) :
    WrittenLine (field :: fields) (cell ++ ',' :: line)

theorem doubled_cons (c : Char) (field : List Char) :
    doubled (c :: field) = (if c = '"' then ['"', '"'] else [c]) ++ doubled field := rfl

theorem mem_doubled {c : Char} {field : List Char} : c ∈ doubled field ↔ c ∈ field := by
  simp only [doubled, List.mem_flatMap]
  constructor
  · intro h
    obtain ⟨d, hd, hc⟩ := h
    split at hc
    · rename_i hquote
      obtain rfl : c = d := by simpa [hquote] using hc
      exact hd
    · obtain rfl := List.mem_singleton.mp hc
      exact hd
  · intro h
    refine ⟨c, h, ?_⟩
    split
    · rename_i hquote
      simp [hquote]
    · simp

/-! Reading -/

/-- Puts characters in front of the first piece. -/
theorem foldr_consHead_cons (cs piece : List Char) (pieces : List (List Char)) :
    cs.foldr Text.consHead (piece :: pieces) = (cs ++ piece) :: pieces := by
  induction cs with
  | nil => rfl
  | cons c cs ih => rw [List.foldr_cons, ih, Text.consHead, List.cons_append]

theorem fieldsFrom_false_cons {c : Char} (hcomma : c ≠ ',') (hquote : c ≠ '"')
    (rest : List Char) : fieldsFrom false (c :: rest) = Text.consHead c (fieldsFrom false rest) := by
  rw [fieldsFrom] <;> simp [hcomma, hquote]

theorem fieldsFrom_true_cons {c : Char} (hquote : c ≠ '"') (rest : List Char) :
    fieldsFrom true (c :: rest) = Text.consHead c (fieldsFrom true rest) := by
  rw [fieldsFrom] <;> simp [hquote]

theorem fieldsFrom_false_quote (rest : List Char) :
    fieldsFrom false ('"' :: rest) = fieldsFrom true rest := by
  rw [fieldsFrom] <;> simp

/-- A quote that is not doubled ends a quoted stretch. -/
theorem fieldsFrom_true_quote {rest : List Char} (h : rest.head? ≠ some '"') :
    fieldsFrom true ('"' :: rest) = fieldsFrom false rest := by
  cases rest with
  | nil => rfl
  | cons c rest =>
    have hc : c ≠ '"' := by simpa using h
    rw [fieldsFrom]
    · rfl
    · simp [hc]

theorem fieldsFrom_bare {field : List Char} (hcomma : ',' ∉ field) (hquote : '"' ∉ field)
    (rest : List Char) :
    fieldsFrom false (field ++ rest) = field.foldr Text.consHead (fieldsFrom false rest) := by
  induction field with
  | nil => rfl
  | cons c field ih =>
    rw [List.mem_cons, not_or] at hcomma hquote
    rw [List.cons_append, fieldsFrom_false_cons (Ne.symm hcomma.1) (Ne.symm hquote.1),
      ih hcomma.2 hquote.2, List.foldr_cons]

theorem fieldsFrom_doubled (field : List Char) {rest : List Char} (h : rest.head? ≠ some '"') :
    fieldsFrom true (doubled field ++ '"' :: rest) =
      field.foldr Text.consHead (fieldsFrom false rest) := by
  induction field with
  | nil => exact fieldsFrom_true_quote h
  | cons c field ih =>
    rw [doubled_cons, List.foldr_cons, ← ih, List.append_assoc]
    split
    · rename_i hc
      rw [hc]
      rfl
    · rename_i hc
      exact fieldsFrom_true_cons hc _

theorem Written.fieldsFrom_append {field cell : List Char} (h : Written field cell)
    {rest : List Char} (hrest : rest.head? ≠ some '"') :
    fieldsFrom false (cell ++ rest) = field.foldr Text.consHead (fieldsFrom false rest) := by
  cases h with
  | bare hcomma hquote => exact fieldsFrom_bare hcomma hquote rest
  | quoted =>
    rw [List.cons_append, List.append_assoc, fieldsFrom_false_quote]
    exact fieldsFrom_doubled field hrest

/-- What is written in a line is read from it. -/
theorem WrittenLine.fieldsFrom_eq {fields : List (List Char)} {line : List Char}
    (h : WrittenLine fields line) : fieldsFrom false line = fields := by
  induction h with
  | @last field cell h =>
    have hread : fieldsFrom false (cell ++ []) = field.foldr Text.consHead [[]] :=
      h.fieldsFrom_append (by simp)
    rw [List.append_nil] at hread
    have hfield := foldr_consHead_cons field [] []
    rw [List.append_nil] at hfield
    exact hread.trans hfield
  | @cons field cell h fields line _ ih =>
    have hcomma : fieldsFrom false (',' :: line) = [] :: fieldsFrom false line := rfl
    rw [h.fieldsFrom_append (by simp), hcomma, ih, foldr_consHead_cons, List.append_nil]

/-! Characters of a line -/

theorem Written.mem_field {field cell : List Char} (h : Written field cell) {c : Char}
    (hc : c ∈ cell) : c ∈ field ∨ c = '"' := by
  cases h with
  | bare => exact .inl hc
  | quoted => simpa [mem_doubled, or_comm, or_left_comm] using hc

theorem WrittenLine.comma_mem {fields : List (List Char)} {line : List Char}
    (h : WrittenLine fields line) (hfields : 2 ≤ fields.length) : ',' ∈ line := by
  cases h with
  | last => simp at hfields
  | cons => simp

/-- Only commas and quotes are added to what the fields hold. -/
theorem WrittenLine.not_mem {fields : List (List Char)} {line : List Char}
    (h : WrittenLine fields line) {c : Char} (hcomma : c ≠ ',') (hquote : c ≠ '"')
    (hfields : ∀ field ∈ fields, c ∉ field) : c ∉ line := by
  induction h with
  | last h =>
    intro hc
    rcases h.mem_field hc with hfield | hq
    · exact hfields _ (by simp) hfield
    · exact hquote hq
  | cons h _ ih =>
    intro hc
    rcases List.mem_append.mp hc with hcell | hc
    · rcases h.mem_field hcell with hfield | hq
      · exact hfields _ (by simp) hfield
      · exact hquote hq
    · rcases List.mem_cons.mp hc with hsep | hline
      · exact hcomma hsep
      · exact ih (fun field hfield => hfields field (List.mem_cons_of_mem _ hfield)) hline

/-! Whole lines -/

/-- Written fields with commas between them are a written line. -/
theorem writtenLine_intercalate {fields cells : List (List Char)} (hne : fields ≠ [])
    (h : List.Forall₂ Written fields cells) : WrittenLine fields ([','].intercalate cells) := by
  induction h with
  | nil => exact absurd rfl hne
  | @cons field cell fields cells hfield hrest ih =>
    cases hrest with
    | nil =>
      rw [List.intercalate_singleton]
      exact .last hfield
    | cons hnext hrest =>
      rw [List.intercalate_cons_cons, List.append_assoc]
      exact .cons hfield (ih (List.cons_ne_nil _ _))

theorem fields_intercalate {fields cells : List String} (hne : fields ≠ [])
    (h : List.Forall₂ (fun field cell => Written field.toList cell.toList) fields cells) :
    Csv.fields (",".intercalate cells) = fields := by
  have hchars : (",".intercalate cells).toList = [','].intercalate (cells.map String.toList) := by
    rw [String.toList_intercalate]
    rfl
  have hwritten : WrittenLine (fields.map String.toList) (",".intercalate cells).toList := by
    rw [hchars]
    refine writtenLine_intercalate (by simpa using hne) ?_
    rwa [List.forall₂_map_left_iff, List.forall₂_map_right_iff]
  rw [Csv.fields, hwritten.fieldsFrom_eq, List.map_map]
  simp [Function.comp_def]

/-- The commas that an even number of quotes stands before, `quotes` of them in front of the text. -/
def outerCommas (quotes : Nat) (cs : List Char) : Nat :=
  (List.range cs.length).countP fun i =>
    cs[i]? = some ',' ∧ (quotes + (cs.take i).count '"') % 2 = 0

theorem outerCommas_cons (quotes : Nat) (c : Char) (cs : List Char) :
    outerCommas quotes (c :: cs) = (if c = ',' ∧ quotes % 2 = 0 then 1 else 0) +
      outerCommas (if c = '"' then quotes + 1 else quotes) cs := by
  have hrest : (List.range cs.length).countP ((fun i => (c :: cs)[i]? = some ',' ∧
      (quotes + ((c :: cs).take i).count '"') % 2 = 0) ∘ Nat.succ) =
        outerCommas (if c = '"' then quotes + 1 else quotes) cs := by
    refine List.countP_congr fun i _ => ?_
    by_cases hc : c = '"' <;> simp [hc, Nat.add_assoc, Nat.add_comm 1]
  rw [outerCommas, List.length_cons, List.range_succ_eq_map, List.countP_cons, List.countP_map,
    hrest, Nat.add_comm]
  simp

/-- Only the parity of the quotes in front counts. -/
theorem outerCommas_add_two (quotes : Nat) (cs : List Char) :
    outerCommas (quotes + 2) cs = outerCommas quotes cs := by
  refine List.countP_congr fun i _ => ?_
  rw [Nat.add_right_comm, Nat.add_mod_right]

theorem length_consHead (c : Char) {pieces : List (List Char)} (h : pieces ≠ []) :
    (Text.consHead c pieces).length = pieces.length := by
  cases pieces with
  | nil => exact absurd rfl h
  | cons => rfl

/-- Every comma outside quotes starts a field. -/
theorem length_fieldsFrom {isQuoted : Bool} {quotes : Nat} (cs : List Char)
    (h : isQuoted = false ↔ quotes % 2 = 0) :
    (fieldsFrom isQuoted cs).length = 1 + outerCommas quotes cs := by
  fun_induction fieldsFrom isQuoted cs generalizing quotes with
  | case1 => rfl
  | case2 cs ih =>
    -- A doubled quote leaves the stretch open and the parity as it is.
    rw [length_consHead _ (fieldsFrom_ne_nil _ _), ih h, outerCommas_cons, outerCommas_cons]
    simp [outerCommas_add_two]
  | case3 isQuoted cs _ ih =>
    have hflip : (!isQuoted) = false ↔ (quotes + 1) % 2 = 0 := by
      cases isQuoted <;> simp_all <;> omega
    rw [ih hflip, outerCommas_cons]
    simp
  | case4 cs ih =>
    rw [List.length_cons, ih h, outerCommas_cons]
    simp [h.mp rfl]
    omega
  | case5 isQuoted c cs _ hquote hcomma ih =>
    have houter : ¬ (c = ',' ∧ quotes % 2 = 0) := fun hc => hcomma (h.mpr hc.2) hc.1
    rw [length_consHead _ (fieldsFrom_ne_nil _ _), ih h, outerCommas_cons, if_neg houter,
      if_neg hquote, Nat.zero_add]

/-- Splitting a line gives back the fields it was written from, and splits any line at the commas that
an even number of quotes stands before. -/
theorem fields_laws :
    (∀ fields cells : List String, fields ≠ [] →
      List.Forall₂ (fun field cell => Written field.toList cell.toList) fields cells →
      Csv.fields (",".intercalate cells) = fields) ∧
    ∀ line : String, (Csv.fields line).length =
      1 + (List.range line.toList.length).countP fun i =>
        line.toList[i]? = some ',' ∧ (line.toList.take i).count '"' % 2 = 0 := by
  refine ⟨fun fields cells hne h => fields_intercalate hne h, fun line => ?_⟩
  have hlength : (fieldsFrom false line.toList).length = 1 + outerCommas 0 line.toList :=
    length_fieldsFrom _ (by simp)
  rw [Csv.fields, List.length_map, hlength, outerCommas]
  simp only [Nat.zero_add]

/-- Empty, quoted and bare fields, with quotes and commas next to the ends of a field. -/
def noteFields : List String := ["", "\",a\"", "b c", "\"", "", "d"]

def noteCells : List String := ["", "\"\"\",a\"\"\"", "b c", "\"\"\"\"", "\"\"", "\"d\""]

theorem fields_laws_noteFields :
    noteFields ≠ [] ∧
      List.Forall₂ (fun field cell => Written field.toList cell.toList) noteFields noteCells ∧
      Csv.fields (",".intercalate noteCells) = noteFields ∧
      (Csv.fields "a,\"b,\"\"c,").length = 2 := by
  have hwritten :
      List.Forall₂ (fun field cell => Written field.toList cell.toList) noteFields noteCells := by
    refine .cons (.bare ?_ ?_) (.cons .quoted (.cons (.bare ?_ ?_) (.cons .quoted (.cons .quoted
      (.cons .quoted .nil))))) <;> decide
  refine ⟨by decide, hwritten, fields_laws.1 _ _ (by decide) hwritten, ?_⟩
  rw [fields_laws.2]
  decide

end DecompTracker.Csv
