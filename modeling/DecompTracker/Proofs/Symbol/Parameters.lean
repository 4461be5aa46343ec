import DecompTracker.Proofs.Classification.Partition
import DecompTracker.Proofs.Symbol.Encoding

/-! Symbols of functions outside of any scope. The types of the parameters follow the name with
nothing in between. A builtin type is a letter, and reading stops there; a class is written just
like a scope, hence the classes named before the first builtin type are read as further segments. -/
namespace DecompTracker.Symbol

open Text

inductive Parameter where
  | builtin (code : Char)
  | named (name : String)
  deriving DecidableEq

namespace Parameter

def Valid : Parameter → Prop
  | builtin code => code.isLower = true
  | named name => IsPlainSegment name

instance : DecidablePred Valid
  | builtin code => inferInstanceAs (Decidable (code.isLower = true))
  | named name => inferInstanceAs (Decidable (IsPlainSegment name))

def encoded : Parameter → String
  | builtin code => code.toString
  | named name => encode name

/-- The classes named before the first builtin type. -/
def leadingNames : List Parameter → List String
  | named name :: parameters => name :: leadingNames parameters
  | _ => []

theorem leadingNames_eq_nil_iff {parameters : List Parameter} (hne : parameters ≠ []) :
    leadingNames parameters = [] ↔ ∃ code, parameters.head? = some (builtin code) := by
  obtain ⟨p, ps, rfl⟩ := List.exists_cons_of_ne_nil hne
  cases p <;> simp [leadingNames]

theorem valid_leadingNames {parameters : List Parameter} (h : ∀ p ∈ parameters, p.Valid) :
    ∀ s ∈ leadingNames parameters, IsPlainSegment s := by
  induction parameters with
  | nil => simp [leadingNames]
  | cons p ps ih =>
    obtain ⟨hp, hps⟩ := List.forall_mem_cons.mp h
    cases p with
    | builtin code => simp [leadingNames]
    | named name => exact List.forall_mem_cons.mpr ⟨hp, ih hps⟩

/-- After the leading classes the list has ended, or a builtin type comes next. -/
theorem exists_after_leadingNames {parameters : List Parameter}
    (h : ∀ p ∈ parameters, p.Valid) :
    ∃ rest : List Char, (String.join (parameters.map encoded)).toList =
        (String.join ((leadingNames parameters).map encode)).toList ++ rest ∧
      ∀ c ∈ rest.head?, c.isLower = true := by
  induction parameters with
  | nil => exact ⟨[], rfl, by simp⟩
  | cons p ps ih =>
    obtain ⟨hp, hps⟩ := List.forall_mem_cons.mp h
    cases p with
    | builtin code =>
      refine ⟨code :: (String.join (ps.map encoded)).toList, ?_, ?_⟩
      · simp [leadingNames, encoded, String.join_cons]
      · rintro c ⟨⟩
        exact hp
    | named name =>
      obtain ⟨rest, hrest, hlower⟩ := ih hps
      refine ⟨rest, ?_, hlower⟩
      simp [leadingNames, encoded, String.join_cons, hrest]

end Parameter

open Parameter

/-- The symbol of a function that lies in no scope. -/
def freeSymbolOf (name : String) (parameters : List Parameter) : String :=
  "_Z" ++ encode name ++ String.join (parameters.map Parameter.encoded)

theorem isLower_iff_toNat {c : Char} : c.isLower = true ↔ 97 ≤ c.toNat ∧ c.toNat ≤ 122 := by
  have hlower : c.isLower = (decide (97 ≤ c.val) && decide (c.val ≤ 122)) := rfl
  simp [hlower, UInt32.le_iff_toNat_le]

/-- A lower-case letter starts neither a size nor a marker. -/
theorem not_item_of_isLower {c : Char} (h : c.isLower = true) :
    c.isDigit = false ∧ c ≠ 'C' ∧ c ≠ 'D' := by
  obtain ⟨hle, -⟩ := isLower_iff_toNat.mp h
  refine ⟨?_, ?_, ?_⟩
  · rw [← Bool.not_eq_true, isDigit_iff_toNat]
    omega
  · rintro rfl
    simp at h
  · rintro rfl
    simp at h

variable {name : String} {parameters : List Parameter}

theorem exists_split_freeSymbolOf (hname : IsPlainSegment name)
    (hparameters : ∀ p ∈ parameters, p.Valid) :
    ∃ s : Split (freeSymbolOf name parameters),
      s.items = (name :: leadingNames parameters).map segmentItem := by
  obtain ⟨rest, hrest, hlower⟩ := exists_after_leadingNames hparameters
  have hscopes : ∀ s ∈ name :: leadingNames parameters, IsPlainSegment s :=
    List.forall_mem_cons.mpr ⟨hname, valid_leadingNames hparameters⟩
  have hend : Row false [] (bytes rest) :=
    row_nil_of_head fun c hc => not_item_of_isLower (hlower c hc)
  have hwhole : bytes (freeSymbolOf name parameters).toList = bytes mark ++ (bytes "".toList ++
      (rowBytes ((name :: leadingNames parameters).map segmentItem ++ []) ++ bytes rest)) := by
    rw [List.append_nil, rowBytes_segments]
    simp [freeSymbolOf, String.join_cons, hrest, mark]
  simpa using exists_split_of_segments hwhole (by simp) (List.cons_ne_nil _ _) hscopes hend

theorem segments_freeSymbolOf (hname : IsPlainSegment name)
    (hparameters : ∀ p ∈ parameters, p.Valid)
    (hsize : (freeSymbolOf name parameters).utf8ByteSize < 2 ^ 63) :
    segments (freeSymbolOf name parameters) = name :: leadingNames parameters := by
  obtain ⟨s, hitems⟩ := exists_split_freeSymbolOf hname hparameters
  have hread := readItems_segments [] (name :: leadingNames parameters) []
  rw [List.append_nil] at hread
  rw [segments_of_split s hsize, hitems, hread, readItems]
  simp

/-- The name of a free function is followed by the classes that are named before the first builtin
type. When a builtin type comes first it stands alone, and only then is the function counted as free
and kept from every class. -/
theorem decode_freeSymbolOf (name : String) (parameters : List Parameter)
    (hname : IsPlainSegment name) (hne : parameters ≠ [])
    (hparameters : ∀ p ∈ parameters, p.Valid)
    (hsize : (freeSymbolOf name parameters).utf8ByteSize < 2 ^ 63) :
    (decode (freeSymbolOf name parameters)).segments = name :: leadingNames parameters ∧
      ((decode (freeSymbolOf name parameters)).segments = [name] ↔
        ∃ code, parameters.head? = some (.builtin code)) ∧
      ∀ f : FunctionEntry, f.symbol = freeSymbolOf name parameters →
        (f.resolve.name.owner? = none ↔ ∃ code, parameters.head? = some (.builtin code)) ∧
        (f.resolve.name.owner? = none → ∀ before after : List FunctionInfo,
          (OwnerIndex.ofList (before ++ f.resolve :: after)).freeFunctions =
            (OwnerIndex.ofList (before ++ after)).freeFunctions + 1 ∧
          ∀ (className : QualifiedName) (overrides : OverrideTable),
            classify className (before ++ f.resolve :: after) overrides =
              classify className (before ++ after) overrides) := by
  have hdecode : (decode (freeSymbolOf name parameters)).segments =
      name :: leadingNames parameters := by
    rw [segments_decode, segments_freeSymbolOf hname hparameters hsize,
      if_neg (List.cons_ne_nil _ _)]
  have hbuiltin := leadingNames_eq_nil_iff hne
  refine ⟨hdecode, ?_, ?_⟩
  · rw [hdecode, ← hbuiltin, List.cons.injEq, and_iff_right rfl]
  · intro f hsymbol
    have hsegments : f.resolve.name.segments = name :: leadingNames parameters := by
      rw [FunctionEntry.resolve, hsymbol, hdecode]
    refine ⟨?_, ?_⟩
    · rw [QualifiedName.owner?_eq_none_iff, QualifiedName.length, hsegments, ← hbuiltin,
        List.length_cons, Nat.add_eq_right, List.length_eq_zero_iff]
    · intro hfree before after
      exact ⟨OwnerIndex.freeFunctions_ofList_append_cons hfree before after,
        fun className overrides => classify_append_cons_of_free hfree className before after overrides⟩

theorem decode_freeSymbolOf_builtinFirst :
    freeSymbolOf "loop" [.builtin 'i', .named "Actor"] = "_Z4loopi5Actor" ∧
      IsPlainSegment "loop" ∧ (∀ p ∈ [Parameter.builtin 'i', .named "Actor"], p.Valid) ∧
      (decode "_Z4loopi5Actor").segments = ["loop"] ∧
      (OwnerIndex.ofList
        [FunctionEntry.resolve ⟨0, .unknown, 4, "_Z4loopi5Actor"⟩]).freeFunctions = 1 ∧
      classify (.parse "loop") [FunctionEntry.resolve ⟨0, .unknown, 4, "_Z4loopi5Actor"⟩] .empty =
        classify (.parse "loop") [] .empty := by
  have hsymbol : freeSymbolOf "loop" [.builtin 'i', .named "Actor"] = "_Z4loopi5Actor" := by
    decide +kernel
  have hname : IsPlainSegment "loop" := by decide
  have hparameters : ∀ p ∈ [Parameter.builtin 'i', .named "Actor"], p.Valid := by decide
  have hsize : (freeSymbolOf "loop" [.builtin 'i', .named "Actor"]).utf8ByteSize < 2 ^ 63 := by
    rw [hsymbol]
    decide
  have hdecode := decode_freeSymbolOf "loop" [.builtin 'i', .named "Actor"] hname
    (List.cons_ne_nil _ _) hparameters hsize
  rw [hsymbol] at hdecode
  obtain ⟨hfree, hcounts⟩ := hdecode.2.2 ⟨0, .unknown, 4, "_Z4loopi5Actor"⟩ rfl
  obtain ⟨hcount, hclass⟩ := hcounts (hfree.mpr ⟨'i', rfl⟩) [] []
  exact ⟨hsymbol, hname, hparameters, hdecode.1, hcount, hclass (.parse "loop") .empty⟩

/-- A parameter of class type is taken for a segment: the function counts as a member of `loop`. -/
theorem exists_parameter_read_as_segment :
    freeSymbolOf "loop" [.named "Actor"] = "_Z4loop5Actor" ∧
      IsPlainSegment "loop" ∧ (Parameter.named "Actor").Valid ∧
      (decode "_Z4loop5Actor").segments = ["loop", "Actor"] ∧
      (decode "_Z4loop5Actor").owner? = some "loop" ∧
      (OwnerIndex.ofList
        [FunctionEntry.resolve ⟨0, .unknown, 4, "_Z4loop5Actor"⟩]).freeFunctions = 0 ∧
      (classify (.parse "loop")
        [FunctionEntry.resolve ⟨0, .unknown, 4, "_Z4loop5Actor"⟩] .empty).methodCount = 1 := by
  decide +kernel

end DecompTracker.Symbol
