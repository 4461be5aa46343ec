import DecompTracker.Proofs.FileTree
import DecompTracker.Proofs.Project.Inputs
import DecompTracker.Proofs.QualifiedName.Canonical
import DecompTracker.Proofs.SortedMap
import Mathlib.Data.Finset.Card

/-! The last word on each class. An override table comes from edits that hold entries, and of the
entries with one full name the last counts, whichever edit it came with and wherever its name was
cut into namespace and short name. Loading the tables of a directory makes such edits. -/
namespace DecompTracker

inductive OverrideEdit where
  | insert (name : QualifiedName) (hint : Hint)
  /-- Status words by short name, all in one namespace. -/
  | insertNamespace (scope : String) (words : List (String × String))

/-- How a class in a namespace is written in full. The empty namespace adds nothing. -/
def fullText (scope short : String) : String :=
  if scope = "" then short else scope ++ "::" ++ short

def OverrideEdit.entries : OverrideEdit → List StatusOverride
  | insert name hint => [⟨name, hint⟩]
  | insertNamespace scope words =>
    words.map fun e => ⟨.parse (fullText scope e.1), .ofWord e.2⟩

/-- The edits that a file stands for. -/
def OverrideFile.edits (file : OverrideFile) : List OverrideEdit :=
  file.entries.map fun e => .insertNamespace e.1 (e.2.entries.map fun x => (x.1, x.2.status))

theorem within_eq_parse (scope short : String) :
    QualifiedName.within scope short = .parse (fullText scope short) := by
  unfold QualifiedName.within fullText
  split <;> rfl

/-- A namespace in a namespace may as well be written with the short name. -/
theorem fullText_nested {outer : String} (inner short : String) (h : outer ≠ "") :
    fullText (outer ++ "::" ++ inner) short = fullText outer (inner ++ "::" ++ short) := by
  have hne : outer ++ "::" ++ inner ≠ "" := by simp [h]
  rw [fullText, fullText, if_neg hne, if_neg h]
  simp only [String.append_assoc]

namespace OverrideTable

/-! Edits -/

def apply (t : OverrideTable) : OverrideEdit → OverrideTable
  | .insert name hint => t.insert name hint
  | .insertNamespace scope words => t.insertNamespace scope words

def ofEdits (edits : List OverrideEdit) : OverrideTable := edits.foldl apply empty

def add (t : OverrideTable) (o : StatusOverride) : OverrideTable := t.insert o.name o.hint

/-- A table says the last of these entries on each class, and nothing else. -/
structure KeepsLast (t : OverrideTable) (entries : List StatusOverride) : Prop where
  get? : ∀ name, t.get? name = (entries.filter fun o => o.name = name).getLast?
  size : t.size = (entries.map StatusOverride.name).toFinset.card

theorem apply_eq (t : OverrideTable) (edit : OverrideEdit) :
    t.apply edit = edit.entries.foldl add t := by
  cases edit with
  | insert name hint => rfl
  | insertNamespace scope words =>
    simp only [apply, insertNamespace, OverrideEdit.entries, List.foldl_map, within_eq_parse]
    rfl

theorem foldl_apply (edits : List OverrideEdit) (t : OverrideTable) :
    edits.foldl apply t = (edits.flatMap OverrideEdit.entries).foldl add t := by
  have hentries : (fun t (edit : OverrideEdit) => edit.entries.foldl add t) = apply := by
    funext t edit
    exact (apply_eq t edit).symm
  rw [List.foldl_flatMap, hentries]

theorem get?_add (t : OverrideTable) (o : StatusOverride) (name : QualifiedName) :
    (t.add o).get? name = if o.name = name then some o else t.get? name := by
  split
  · rename_i h
    subst h
    simp [get?, add, insert]
  · rename_i h
    simp [get?, add, insert, SortedMap.get?_insert_of_ne _ _ (Ne.symm h)]

theorem get?_foldl_add (entries : List StatusOverride) (name : QualifiedName) :
    (entries.foldl add empty).get? name =
      (entries.filter fun o => o.name = name).getLast? := by
  induction entries using List.reverseRecOn with
  | nil => rfl
  | append_singleton entries o ih =>
    rw [List.foldl_append, List.foldl_cons, List.foldl_nil, get?_add, ih, List.filter_append]
    by_cases h : o.name = name <;> simp [h]

theorem mem_keys_foldl_add {entries : List StatusOverride} {name : QualifiedName} :
    name ∈ (entries.foldl add empty).hints.keys ↔ name ∈ entries.map StatusOverride.name := by
  induction entries using List.reverseRecOn with
  | nil => simp [empty, SortedMap.keys_empty]
  | append_singleton entries o ih =>
    rw [List.foldl_append, List.foldl_cons, List.foldl_nil, add, insert, SortedMap.insert,
      SortedMap.mem_keys_update, ih, List.map_append, List.mem_append, List.map_singleton,
      List.mem_singleton, or_comm]

theorem size_foldl_add (entries : List StatusOverride) :
    (entries.foldl add empty).size = (entries.map StatusOverride.name).toFinset.card := by
  have hkeys : (entries.foldl add empty).hints.keys.toFinset =
      (entries.map StatusOverride.name).toFinset := by
    ext name
    rw [List.mem_toFinset, List.mem_toFinset, mem_keys_foldl_add]
  rw [← hkeys, List.toFinset_card_of_nodup (SortedMap.nodup_keys _), SortedMap.keys,
    List.length_map]
  rfl

theorem keepsLast_ofEdits (edits : List OverrideEdit) :
    (ofEdits edits).KeepsLast (edits.flatMap OverrideEdit.entries) := by
  rw [ofEdits, foldl_apply]
  exact ⟨get?_foldl_add _, size_foldl_add _⟩

end OverrideTable

/-! Files -/

theorem OverrideFile.addTo_eq (file : OverrideFile) (t : OverrideTable) :
    file.addTo t = file.edits.foldl OverrideTable.apply t := by
  rw [addTo, edits, List.foldl_map]
  rfl

theorem lt_of_compare_eq {a b : String} (h : compare a b = .lt) : a < b :=
  compareOfLessAndEq_eq_lt.mp h

theorem pairwise_keys_lt {ν : Type} (m : SortedMap String ν) :
    m.entries.Pairwise fun a b => a.1 < b.1 :=
  m.sorted.imp lt_of_compare_eq

open Project

/-- The file at a path can be read as an override table. -/
def Machine.HoldsTable (machine : Machine) (path : Path) (file : OverrideFile) : Prop :=
  ∃ bytes text, machine.read? path = some bytes ∧ String.fromUTF8? bytes = some text ∧
    overrideFile? text (overrideFormat path) = some file

/-- The override tables in a directory, in increasing order of their file names. -/
structure Machine.TablesIn (machine : Machine) (directory : Path) (names : List String)
    (files : List OverrideFile) : Prop where
  tables : machine.tables directory = names.map fun name => directory.join ⟨name⟩
  increasing : names.Pairwise (· < ·)
  hold : List.Forall₂ machine.HoldsTable (machine.tables directory) files

namespace Project

variable {machine machine' : Machine}

theorem exists_names (machine : Machine) (directory : Path) : ∃ names : List String,
    machine.tables directory = (names.map fun name => directory.join ⟨name⟩) ∧
      names.Pairwise (· < ·) := by
  refine ⟨_, rfl, List.Pairwise.filter _ ?_⟩
  unfold Machine.fileNames?
  cases machine.find? directory with
  | none => exact .nil
  | some place =>
    rw [Option.bind_eq_bind, Option.bind_some]
    split
    · exact (machine.files.pairwise_fileNamesAt place).imp lt_of_compare_eq
    · exact .nil

theorem runOn_loadOverrideFile_eq_ok_iff_holdsTable {t t' : OverrideTable} {path : Path} :
    runOn machine (loadOverrideFile t path) = (.ok t', machine') ↔
      machine' = machine ∧ ∃ file : OverrideFile, machine.HoldsTable path file ∧
        t' = file.edits.foldl OverrideTable.apply t := by
  simp only [runOn_loadOverrideFile_eq_ok, overridesAfter?, Option.bind_eq_bind,
    Option.bind_eq_some_iff, Option.pure_def, Option.some.injEq, OverrideFile.addTo_eq]
  refine and_congr_right fun _ => ⟨?_, ?_⟩
  · rintro ⟨bytes, hbytes, text, htext, file, hfile, rfl⟩
    exact ⟨file, ⟨bytes, text, hbytes, htext, hfile⟩, rfl⟩
  · rintro ⟨file, ⟨bytes, text, hbytes, htext, hfile⟩, rfl⟩
    exact ⟨bytes, hbytes, text, htext, file, hfile, rfl⟩

/-- Loading files one after the other makes the edits of each in turn. -/
theorem runOn_foldlM_eq_ok_iff_holdsTable {paths : List Path} {t t' : OverrideTable} :
    runOn machine (paths.foldlM loadOverrideFile t) = (.ok t', machine') ↔
      machine' = machine ∧ ∃ files, List.Forall₂ machine.HoldsTable paths files ∧
        t' = (files.flatMap OverrideFile.edits).foldl OverrideTable.apply t := by
  induction paths generalizing t with
  | nil =>
    rw [List.foldlM_nil, runOn_pure, Prod.mk.injEq, Except.ok.injEq]
    constructor
    · rintro ⟨rfl, rfl⟩
      exact ⟨rfl, [], .nil, rfl⟩
    · rintro ⟨rfl, files, hfiles, rfl⟩
      obtain rfl := List.forall₂_nil_left_iff.mp hfiles
      exact ⟨rfl, rfl⟩
  | cons path paths ih =>
    rw [List.foldlM_cons, runOn_bind_eq_ok]
    constructor
    · rintro ⟨next, _, hfile, hrest⟩
      obtain ⟨rfl, file, hholds, rfl⟩ := runOn_loadOverrideFile_eq_ok_iff_holdsTable.mp hfile
      obtain ⟨hmachine, files, hfiles, rfl⟩ := ih.mp hrest
      refine ⟨hmachine, file :: files, .cons hholds hfiles, ?_⟩
      rw [List.flatMap_cons, List.foldl_append]
    · rintro ⟨hmachine, files, hfiles, rfl⟩
      obtain ⟨file, rest, hholds, hrest, rfl⟩ := List.forall₂_cons_left_iff.mp hfiles
      refine ⟨_, machine, runOn_loadOverrideFile_eq_ok_iff_holdsTable.mpr ⟨rfl, file, hholds, rfl⟩,
        ih.mpr ⟨hmachine, rest, hrest, ?_⟩⟩
      rw [List.flatMap_cons, List.foldl_append]

theorem runOn_loadOverrides_eq_ok_iff_tablesIn {directory : Path} {t : OverrideTable} :
    runOn machine (loadOverrides directory) = (.ok t, machine') ↔
      machine' = machine ∧ ∃ names files, machine.TablesIn directory names files ∧
        t = .ofEdits (files.flatMap OverrideFile.edits) := by
  rw [loadOverrides, runOn_bind, runOn_overrideFiles]
  refine runOn_foldlM_eq_ok_iff_holdsTable.trans (and_congr_right fun _ => ⟨?_, ?_⟩)
  · rintro ⟨files, hfiles, rfl⟩
    obtain ⟨names, htables, hsorted⟩ := exists_names machine directory
    exact ⟨names, files, ⟨htables, hsorted, hfiles⟩, rfl⟩
  · rintro ⟨names, files, htables, rfl⟩
    exact ⟨files, htables.hold, rfl⟩

end Project

/-- After any edits a table gives the last entry with a full name, counts each full name once, and does
not see how a full name was cut. Loading a directory makes the edits of its tables by increasing file
name, then namespace, then short name. -/
theorem overrides_keepLast :
    (∀ edits, (OverrideTable.ofEdits edits).KeepsLast (edits.flatMap OverrideEdit.entries)) ∧
    (∀ scope short scope' short',
      QualifiedName.parse (fullText scope short) = .parse (fullText scope' short') ↔
        fullText scope short = fullText scope' short') ∧
    (∀ outer inner short, outer ≠ "" →
      fullText (outer ++ "::" ++ inner) short = fullText outer (inner ++ "::" ++ short)) ∧
    (∀ (machine machine' : Machine) (directory : Path) (t : OverrideTable),
      runOn machine (loadOverrides directory) = (.ok t, machine') ↔
        machine' = machine ∧ ∃ names files, machine.TablesIn directory names files ∧
          t = .ofEdits (files.flatMap OverrideFile.edits)) ∧
    ∀ file : OverrideFile, (file.entries.Pairwise fun a b => a.1 < b.1) ∧
      ∀ e ∈ file.entries, e.2.entries.Pairwise fun a b => a.1 < b.1 := by
  refine ⟨OverrideTable.keepsLast_ofEdits, fun _ _ _ _ => QualifiedName.parse_injective.eq_iff,
    fun _ inner short => fullText_nested inner short,
    fun _ _ _ _ => runOn_loadOverrides_eq_ok_iff_tablesIn, fun file => ?_⟩
  exact ⟨pairwise_keys_lt file, fun e _ => pairwise_keys_lt e.2⟩

/-- One class in three spellings, and another one. -/
def spelledEdits : List OverrideEdit :=
  [.insertNamespace "ksys::act" [("Foo", "pending"), ("Bar", "done")],
    .insertNamespace "ksys" [("act::Foo", "final")],
    .insertNamespace "" [("ksys::act::Foo", "pending"), ("Foo", "pending")],
    .insert (.parse "Foo") .final]

theorem overrides_keepLast_spelledEdits :
    (OverrideTable.ofEdits spelledEdits).get? (.parse "ksys::act::Foo") =
        some ⟨.parse "ksys::act::Foo", .pending⟩ ∧
      (OverrideTable.ofEdits spelledEdits).get? (.parse "Foo") = some ⟨.parse "Foo", .final⟩ ∧
      (OverrideTable.ofEdits spelledEdits).get? (.parse "ksys::act") = none ∧
      (OverrideTable.ofEdits spelledEdits).size = 3 := by
  have h := overrides_keepLast.1 spelledEdits
  rw [h.get?, h.get?, h.get?, h.size]
  decide +kernel

end DecompTracker
