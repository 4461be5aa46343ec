import DecompTracker.Json.Form
import DecompTracker.Proofs.Json.Texts
import DecompTracker.Proofs.SortedMap

/-! JSON forms that are read back. What a value of a type is written as reads as that value again,
for each kind of form: texts, numbers, lists, pairs, maps and records. -/
namespace DecompTracker

namespace Json

/-- What stands in an object under a chain of names. -/
def under? (j : Json) : List String → Option Json
  | [] => some j
  | name :: names =>
    match j with
    | .object members => (members.lookup (.text name)).bind fun member => member.under? names
    | _ => none

/-- A JSON value that keeps its meaning in a text and stands for the given value of a type. -/
structure ReadsAs {α : Type} [JsonForm α] (j : Json) (a : α) : Prop where
  plain : j.Plain
  read : ofJson? j = some a

theorem ReadsAs.ofText?_eq {α : Type} [JsonForm α] {j : Json} {a : α} (h : j.ReadsAs a)
    {text : String} (ht : IsTextOf text j) : JsonForm.ofText? text = some a := by
  rw [JsonForm.ofText?, h.plain.parse?_eq ht, Option.bind_some, h.read]

/-- Reading every written item gives the items. -/
theorem mapM_map_eq {α β : Type} {write : α → β} {read : β → Option α} {as : List α}
    (h : ∀ a ∈ as, read (write a) = some a) : (as.map write).mapM read = some as := by
  induction as with
  | nil => rfl
  | cons a as ih =>
    rw [List.forall_mem_cons] at h
    rw [List.map_cons, List.mapM_cons, h.1, ih h.2]
    rfl

theorem readsAs_text (s : String) : (toJson s).ReadsAs s := ⟨.text s, rfl⟩

theorem readsAs_word {n : Nat} (hn : n ≤ Text.maxWord) : (toJson n).ReadsAs n :=
  ⟨.nat hn, if_pos hn⟩

variable {α β ν : Type} [JsonForm α] [JsonForm β] [JsonForm ν]

theorem readsAs_list {as : List α} (h : ∀ a ∈ as, (toJson a).ReadsAs a) :
    (toJson as).ReadsAs as where
  plain := by
    apply Plain.array
    simpa using fun a ha => (h a ha).plain
  read := mapM_map_eq fun a ha => (h a ha).read

theorem readsAs_pair {a : α} {b : β} (ha : (toJson a).ReadsAs a) (hb : (toJson b).ReadsAs b) :
    (toJson (a, b)).ReadsAs (a, b) where
  plain := .array (by simp [ha.plain, hb.plain])
  read := by
    have hread : ofJson? (toJson (a, b)) = (do return (← ofJson? (toJson a), ← ofJson? (toJson b)) :
        Option (α × β)) := rfl
    rw [hread, ha.read, hb.read]
    rfl

/-- A map is read from its entries, which have different keys. -/
theorem readsAs_map {m : SortedMap String ν} (h : ∀ e ∈ m.entries, (toJson e.2).ReadsAs e.2) :
    (toJson m).ReadsAs m where
  plain := by
    apply Plain.members
    intro member hmember
    obtain ⟨e, he, rfl⟩ := List.mem_map.mp hmember
    exact (h e he).plain
  read := by
    have hentries : (named (m.entries.map fun e => (e.1, toJson e.2))).mapM (fun a => do
        return ((← ofJson? (.string a.1) : String), (← ofJson? a.2 : ν))) = some m.entries := by
      rw [named, List.map_map]
      apply mapM_map_eq
      intro e he
      simp only [Function.comp_apply, (h e he).read]
      rfl
    have hread : ofJson? (toJson m) = (some m.entries).map SortedMap.ofList :=
      hentries ▸ Option.map_eq_bind.symm
    rw [hread, Option.map_some, SortedMap.ofList_entries]

/-- A record finds its fields in the members that were written for it. -/
theorem record?_ofMembers {members : List (String × Json)} {names : List String}
    (hnames : names.Nodup) (hmembers : (members.map Prod.fst).Sublist names) :
    (ofMembers members).record? names = some ⟨members⟩ := by
  have hread : (named members).mapM (fun m => do
      return ((← ofJson? (.string m.1) : String), m.2)) = some members :=
    mapM_map_eq fun _ _ => rfl
  have hfields : members.filter (fun m => names.contains m.1) = members := by
    rw [List.filter_eq_self]
    intro m hm
    rw [List.contains_iff_mem]
    exact hmembers.subset (List.mem_map_of_mem hm)
  rw [ofMembers, ← named, record?, hread]
  simp only [Option.bind_eq_bind, Option.bind_some, hfields, if_pos (hnames.sublist hmembers)]

/-- A field is looked up past the fields with other names. -/
@[simp] theorem lookup_cons_of_ne {name name' : String} (h : name ≠ name') (j : Json)
    (fields : List (String × Json)) : ((name', j) :: fields).lookup name = fields.lookup name := by
  rw [List.lookup_cons, beq_false_of_ne h]

/-- A value that is read from a record is made of what its fields are read as. -/
theorem readsAs_members {members : List (String × Json)} {names : List String}
    {build : Record → Option α} {a : α} (hread : ∀ j : Json, ofJson? j = j.record? names >>= build)
    (hnames : names.Nodup) (hmembers : (members.map Prod.fst).Sublist names)
    (hplain : ∀ m ∈ members, m.2.Plain) (hbuild : build ⟨members⟩ = some a) :
    (ofMembers members).ReadsAs a where
  plain := .members hplain
  read := by
    rw [hread, record?_ofMembers hnames hmembers]
    exact hbuild

end Json

end DecompTracker
