import DecompTracker.Text.Blank
import DecompTracker.Text.Split
import Mathlib.Data.List.DropRight

/-! Trimmed texts and the lines of a text. Trimming twice is trimming once. The lines of a text are
what stands before the line feeds in it, so blank lines and the two ways to end a line do not show
in the lines that hold something. -/
namespace DecompTracker.Text

/-! Trimming -/

theorem trimChars_eq (cs : List Char) :
    trimChars cs = (cs.dropWhile isBlank).rdropWhile isBlank := rfl

/-- Nothing is taken off the end beyond an element that stays. -/
theorem rdropWhile_cons_of_neg {α : Type} {p : α → Bool} {a : α} (h : p a = false) (l : List α) :
    (a :: l).rdropWhile p = a :: l.rdropWhile p := by
  simp only [List.rdropWhile, List.reverse_cons, List.dropWhile_append]
  split
  · rename_i hnil
    rw [List.isEmpty_iff] at hnil
    simp [h, hnil]
  · simp

theorem trimChars_trimChars (cs : List Char) : trimChars (trimChars cs) = trimChars cs := by
  have hdrop : (trimChars cs).dropWhile isBlank = trimChars cs := by
    rw [trimChars_eq]
    cases hd : cs.dropWhile isBlank with
    | nil => rfl
    | cons c ds =>
      have hc : isBlank c = false := by
        have := List.head?_dropWhile_not isBlank cs
        simpa [hd] using this
      rw [rdropWhile_cons_of_neg hc]
      simp [hc]
  rw [trimChars_eq (trimChars cs), hdrop, trimChars_eq cs, List.rdropWhile_idempotent]

theorem trim_trim (s : String) : trim (trim s) = trim s := by
  simp [trim, trimChars_trimChars]

/-- Blanks around a text are trimmed off whatever the text is. -/
theorem trimChars_of_blank_around {before after : List Char}
    (hbefore : ∀ c ∈ before, isBlank c = true) (hafter : ∀ c ∈ after, isBlank c = true)
    (cs : List Char) : trimChars (before ++ cs ++ after) = trimChars cs := by
  rw [trimChars_eq, trimChars_eq, List.append_assoc, List.dropWhile_append_of_pos hbefore,
    List.dropWhile_append]
  split
  · rename_i hnil
    rw [List.isEmpty_iff.mp hnil, List.dropWhile_eq_nil_iff.mpr hafter]
  · rw [List.rdropWhile, List.rdropWhile, List.reverse_append,
      List.dropWhile_append_of_pos (by simpa using hafter)]

theorem exists_eq_append_trimChars (cs : List Char) : ∃ before after : List Char,
    (∀ c ∈ before, isBlank c = true) ∧ (∀ c ∈ after, isBlank c = true) ∧
      cs = before ++ trimChars cs ++ after := by
  refine ⟨cs.takeWhile isBlank, (cs.dropWhile isBlank).rtakeWhile isBlank,
    fun _ => List.mem_takeWhile_imp, fun _ => List.mem_rtakeWhile_imp, ?_⟩
  rw [trimChars_eq, List.append_assoc, List.rdropWhile_append_rtakeWhile,
    List.takeWhile_append_dropWhile]

/-! Lines -/

theorem splitChars_of_not_mem {separator : Char} {cs : List Char} (h : separator ∉ cs) :
    splitChars separator cs = [cs] := by
  induction cs with
  | nil => rfl
  | cons c cs ih =>
    have hc : c ≠ separator := fun he => h (by simp [he])
    have hcs : separator ∉ cs := fun hm => h (List.mem_cons_of_mem c hm)
    rw [splitChars, if_neg hc, ih hcs, consHead]

theorem not_mem_of_mem_splitChars {separator : Char} {cs piece : List Char}
    (h : piece ∈ splitChars separator cs) : separator ∉ piece := by
  induction cs generalizing piece with
  | nil => simp_all [splitChars]
  | cons c cs ih =>
    rw [splitChars] at h
    split at h
    · rcases List.mem_cons.mp h with rfl | h
      · exact List.not_mem_nil
      · exact ih h
    · rename_i hc
      obtain ⟨first, pieces, he⟩ := List.exists_cons_of_ne_nil (splitChars_ne_nil separator cs)
      rw [he] at h ih
      rcases List.mem_cons.mp h with rfl | h
      · rw [List.mem_cons, not_or]
        exact ⟨Ne.symm hc, ih List.mem_cons_self⟩
      · exact ih (List.mem_cons_of_mem first h)

/-- What stands before a separator and what follows it are split each by itself. -/
theorem splitChars_append (separator : Char) (cs rest : List Char) :
    splitChars separator (cs ++ separator :: rest) =
      splitChars separator cs ++ splitChars separator rest := by
  induction cs with
  | nil => simp [splitChars]
  | cons c cs ih =>
    rw [List.cons_append, splitChars, splitChars, ih]
    split
    · rfl
    · obtain ⟨piece, pieces, he⟩ := List.exists_cons_of_ne_nil (splitChars_ne_nil separator cs)
      rw [he]
      rfl

/-- The lines of a text, not yet put together. -/
def lineChars (cs : List Char) : List (List Char) := linesOfPieces (splitChars '\n' cs)

theorem lineChars_append {line : List Char} (h : '\n' ∉ line) (rest : List Char) :
    lineChars (line ++ '\n' :: rest) = dropReturn line :: lineChars rest := by
  rw [lineChars, splitChars_append, splitChars_of_not_mem h, List.singleton_append]
  obtain ⟨piece, pieces, he⟩ := List.exists_cons_of_ne_nil (splitChars_ne_nil '\n' rest)
  rw [lineChars, he]
  rfl

theorem lineChars_of_not_mem {line : List Char} (h : '\n' ∉ line) :
    lineChars line = if line.isEmpty then [] else [line] := by
  rw [lineChars, splitChars_of_not_mem h]
  rfl

theorem dropReturn_of_not_mem {line : List Char} (h : '\r' ∉ line) : dropReturn line = line := by
  rw [dropReturn, if_neg]
  intro hlast
  exact h (List.mem_of_getLast? hlast)

theorem dropReturn_concat (line : List Char) : dropReturn (line ++ ['\r']) = line := by
  simp [dropReturn]

theorem mem_of_mem_dropReturn {c : Char} {line : List Char} (h : c ∈ dropReturn line) :
    c ∈ line := by
  unfold dropReturn at h
  split at h
  · exact List.dropLast_subset _ h
  · exact h

/-- A line that holds nothing. -/
def IsBlankLine (line : List Char) : Prop := ∀ c ∈ line, isBlank c = true ∧ c ≠ '\n'

/-- The lines stand in the text in their order, among any number of blank lines. Each is ended by a
line feed, perhaps with a carriage return before it; the last one need not be ended. -/
inductive HoldsLines : List (List Char) → List Char → Prop where
  | lastBlank {line : List Char} (h : IsBlankLine line) : HoldsLines [] line
  | last (line : List Char) : HoldsLines [line] line
  | blank {line : List Char} (h : IsBlankLine line) {lines : List (List Char)} {text : List Char}
    (rest : HoldsLines lines text) : HoldsLines lines (line ++ '\n' :: text)
  | ended (line : List Char) {lines : List (List Char)} {text : List Char}
    (rest : HoldsLines lines text) : HoldsLines (line :: lines) (line ++ '\n' :: text)
  | endedByReturn (line : List Char) {lines : List (List Char)} {text : List Char}
    (rest : HoldsLines lines text) : HoldsLines (line :: lines) (line ++ '\r' :: '\n' :: text)

/-- A line that can be told from the lines around it. -/
structure IsFilledLine (line : List Char) : Prop where
  no_feed : '\n' ∉ line
  no_return : '\r' ∉ line
  filled : ∃ c ∈ line, isBlank c = false

theorem IsBlankLine.all_dropReturn {line : List Char} (h : IsBlankLine line) :
    (dropReturn line).all isBlank = true := by
  rw [List.all_eq_true]
  intro c hc
  exact (h c (mem_of_mem_dropReturn hc)).1

theorem IsFilledLine.not_all {line : List Char} (h : IsFilledLine line) :
    line.all isBlank = false := by
  obtain ⟨c, hc, hblank⟩ := h.filled
  rw [List.all_eq_false]
  exact ⟨c, hc, by simp [hblank]⟩

/-- The lines that are not blank are the ones a text was made to hold. -/
theorem HoldsLines.filter_lineChars {lines : List (List Char)} {text : List Char}
    (h : HoldsLines lines text) (hlines : ∀ line ∈ lines, IsFilledLine line) :
    (lineChars text).filter (fun line => !line.all isBlank) = lines := by
  induction h with
  | @lastBlank line h =>
    have hfeed : '\n' ∉ line := fun hm => (h _ hm).2 rfl
    have hall : line.all isBlank = true := List.all_eq_true.mpr fun c hc => (h c hc).1
    rw [lineChars_of_not_mem hfeed]
    split <;> simp [hall]
  | last line =>
    have hline := hlines line (by simp)
    have hne : line.isEmpty = false := by
      obtain ⟨c, hc, -⟩ := hline.filled
      cases line with
      | nil => simp at hc
      | cons => rfl
    rw [lineChars_of_not_mem hline.no_feed, hne]
    simp [hline.not_all]
  | @blank line h lines text _ ih =>
    have hfeed : '\n' ∉ line := fun hm => (h _ hm).2 rfl
    rw [lineChars_append hfeed, List.filter_cons_of_neg (by simp [h.all_dropReturn])]
    exact ih hlines
  | @ended line lines text _ ih =>
    have hline := hlines line (by simp)
    rw [lineChars_append hline.no_feed, dropReturn_of_not_mem hline.no_return,
      List.filter_cons_of_pos (by simp [hline.not_all])]
    exact congrArg _ (ih fun l hl => hlines l (List.mem_cons_of_mem _ hl))
  | @endedByReturn line lines text _ ih =>
    have hline := hlines line (by simp)
    have hfeed : '\n' ∉ line ++ ['\r'] := by simp [hline.no_feed]
    have hsplit : line ++ '\r' :: '\n' :: text = (line ++ ['\r']) ++ '\n' :: text := by simp
    rw [hsplit, lineChars_append hfeed, dropReturn_concat,
      List.filter_cons_of_pos (by simp [hline.not_all])]
    exact congrArg _ (ih fun l hl => hlines l (List.mem_cons_of_mem _ hl))

end DecompTracker.Text
