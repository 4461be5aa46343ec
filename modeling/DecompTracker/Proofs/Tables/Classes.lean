import DecompTracker.Proofs.Json.Form
import DecompTracker.Proofs.QualifiedName.Canonical
import DecompTracker.Tables.Classes
import Mathlib.Data.Finset.Dedup

/-! Class tables and the classes they list. A table is read from each of the two shapes in which
classes are listed. What it says of classes with different names is a matter of the set of names that
each refers to, and neither of the shape nor of any order. -/
namespace DecompTracker

open Hierarchy

/-! What a table lists -/

/-- The names a class refers to, as the value of the member named like the class. -/
def classMember (e : String × List String) : JsonString × Json :=
  (.text e.1, .array (e.2.map .ofText))

/-- A JSON value lists classes, each with the names it refers to: as the members of an object, or as
the items of an array when there are no such names. -/
inductive Json.ListsClasses : Json → List (String × List String) → Prop where
  | members (entries : List (String × List String)) :
    ListsClasses (.object (entries.map classMember)) entries
  | items (names : List String) :
    ListsClasses (.array (names.map .ofText)) (names.map fun name => (name, []))

theorem ofJson?_texts (names : List String) : ofJson? (.array (names.map .ofText)) = some names :=
  (Json.readsAs_list fun name _ => Json.readsAs_text name).read

namespace ClassTable

/-- The listed classes, each with the names it refers to. -/
def entries : ClassTable → List (String × List String)
  | withTargets entries => entries.entries
  | plain names => names.map fun name => (name, [])

theorem ofJson?_members (entries : List (String × List String)) :
    ofJson? (.object (entries.map classMember)) = some (.withTargets (.ofList entries)) := by
  have hentries : (entries.map classMember).mapM (fun m => do
      return ((← JsonForm.ofJson? (.string m.1) : String),
        (← JsonForm.ofJson? m.2 : List String))) = some entries := by
    apply Json.mapM_map_eq
    intro e _
    simp only [classMember, ofJson?_texts]
    rfl
  have hread : (JsonForm.ofJson? (.object (entries.map classMember)) :
      Option (SortedMap String (List String))) = (some entries).map .ofList :=
    hentries ▸ Option.map_eq_bind.symm
  rw [ofJson?, hread, Option.map_some]

theorem ofJson?_items (names : List String) :
    ofJson? (.array (names.map .ofText)) = some (.plain names) := by
  have hnone : (JsonForm.ofJson? (.array (names.map .ofText)) :
      Option (SortedMap String (List String))) = none := rfl
  rw [ofJson?, hnone, ofJson?_texts, Option.map_some]

/-- Reading keeps what is listed when no class is listed twice. -/
theorem ofJson?_of_listsClasses {j : Json} {listed : List (String × List String)}
    (h : j.ListsClasses listed) (hn : (listed.map Prod.fst).Nodup) :
    ∃ table, ofJson? j = some table ∧ (table.entries.map Prod.fst).Nodup ∧
      ∀ e, e ∈ table.entries ↔ e ∈ listed := by
  cases h with
  | members =>
    refine ⟨_, ofJson?_members listed, SortedMap.nodup_keys _, fun e => ?_⟩
    rw [entries, ← SortedMap.get?_ofList hn, SortedMap.get?_eq_some_iff]
  | items names => exact ⟨_, ofJson?_items names, hn, fun e => .rfl⟩

/-! Dependencies -/

/-- The class of an entry and the names it refers to. -/
def parsed (e : String × List String) : QualifiedName × SortedSet QualifiedName :=
  (.parse e.1, .ofList (e.2.map QualifiedName.parse))

theorem dependencies_eq (table : ClassTable) :
    table.dependencies = .ofList (table.entries.map parsed) := by
  cases table with
  | withTargets => rfl
  | plain names =>
    rw [dependencies, entries, List.map_map]
    rfl

theorem get?_dependencies {table : ClassTable} (hn : (table.entries.map Prod.fst).Nodup)
    {name : QualifiedName} {targets : SortedSet QualifiedName} :
    table.dependencies.get? name = some targets ↔
      ∃ e ∈ table.entries, parsed e = (name, targets) := by
  have hkeys : ((table.entries.map parsed).map Prod.fst).Nodup := by
    have hparsed := hn.map QualifiedName.parse_injective
    rwa [List.map_map] at hparsed ⊢
  rw [dependencies_eq, SortedMap.get?_ofList hkeys, List.mem_map]

end ClassTable

/-- Listed classes as a set, each with the set of the names it refers to. -/
def classSets (entries : List (String × List String)) : Finset (String × Finset String) :=
  (entries.map fun e => (e.1, e.2.toFinset)).toFinset

theorem mem_classSets {entries : List (String × List String)} {x : String × Finset String} :
    x ∈ classSets entries ↔ ∃ e ∈ entries, (e.1, e.2.toFinset) = x := by
  rw [classSets, List.mem_toFinset, List.mem_map]

theorem classSets_congr {entries entries' : List (String × List String)}
    (h : ∀ e, e ∈ entries ↔ e ∈ entries') : classSets entries = classSets entries' := by
  ext x
  simp only [mem_classSets, h]

namespace ClassTable

/-- An entry means the same for every order of the names, repeats included. -/
theorem parsed_congr {e e' : String × List String}
    (h : (e.1, e.2.toFinset) = (e'.1, e'.2.toFinset)) : parsed e = parsed e' := by
  obtain ⟨hname, htargets⟩ := Prod.mk.inj h
  refine Prod.ext (congrArg QualifiedName.parse hname) (SortedSet.ext_mem fun target => ?_)
  have hmem (t : String) : t ∈ e.2 ↔ t ∈ e'.2 := by
    rw [← List.mem_toFinset, htargets, List.mem_toFinset]
  simp only [parsed, SortedSet.mem_toList_ofList, List.mem_map, hmem]

/-- Tables with different names list the same dependencies when they list the same sets. -/
theorem dependencies_eq_of_classSets_eq {table table' : ClassTable}
    (hn : (table.entries.map Prod.fst).Nodup) (hn' : (table'.entries.map Prod.fst).Nodup)
    (h : classSets table.entries = classSets table'.entries) :
    table.dependencies = table'.dependencies := by
  have hsub {t t' : ClassTable} (hsets : classSets t.entries = classSets t'.entries)
      {x : QualifiedName × SortedSet QualifiedName} (hx : ∃ e ∈ t.entries, parsed e = x) :
      ∃ e ∈ t'.entries, parsed e = x := by
    obtain ⟨e, he, rfl⟩ := hx
    obtain ⟨e', he', heq⟩ := mem_classSets.mp (hsets ▸ mem_classSets.mpr ⟨e, he, rfl⟩)
    exact ⟨e', he', parsed_congr heq⟩
  refine SortedMap.ext_get? fun name => Option.ext fun targets => ?_
  rw [get?_dependencies hn, get?_dependencies hn']
  exact ⟨hsub h, hsub h.symm⟩

end ClassTable

/-- The shape of a document, its order and its repetitions do not matter. -/
theorem Json.ListsClasses.dependencies_eq {j j' : Json}
    {listed listed' : List (String × List String)}
    (h : j.ListsClasses listed) (h' : j'.ListsClasses listed')
    (hn : (listed.map Prod.fst).Nodup) (hn' : (listed'.map Prod.fst).Nodup)
    (hsets : classSets listed = classSets listed') :
    ∃ table table', ClassTable.ofJson? j = some table ∧ ClassTable.ofJson? j' = some table' ∧
      table.dependencies = table'.dependencies := by
  obtain ⟨table, ht, hnodup, hmem⟩ := ClassTable.ofJson?_of_listsClasses h hn
  obtain ⟨table', ht', hnodup', hmem'⟩ := ClassTable.ofJson?_of_listsClasses h' hn'
  refine ⟨table, table', ht, ht', ClassTable.dependencies_eq_of_classSets_eq hnodup hnodup' ?_⟩
  rw [classSets_congr hmem, classSets_congr hmem', hsets]

end DecompTracker
