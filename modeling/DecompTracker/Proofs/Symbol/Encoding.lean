import DecompTracker.Classification
import DecompTracker.Proofs.Symbol.Scanning

/-! Encoded names are decoded. Every segment is written after its size, hence whatever a segment
holds is skipped as a whole, and reading stops at the letter after the last one. -/
namespace DecompTracker.Symbol

open Text

def encode (s : String) : String := toString s.utf8ByteSize ++ s

/-- A segment can stand right after its size: it is not empty and starts with no digit. -/
def IsPlainSegment (s : String) : Prop := ∃ b ∈ (bytes s.toList).head?, ¬ IsDigitByte b

instance (s : String) : Decidable (IsPlainSegment s) :=
  inferInstanceAs (Decidable (∃ b ∈ (bytes s.toList).head?, ¬ IsDigitByte b))

/-- What a member function of a class is called. -/
inductive Member where
  | method (name : String)
  | constructor (digit : Char)
  | destructor (digit : Char)

namespace Member

def Valid : Member → Prop
  | method name => IsPlainSegment name
  | constructor digit => digit.isDigit = true
  | destructor digit => digit.isDigit = true

instance : DecidablePred Valid
  | method name => inferInstanceAs (Decidable (IsPlainSegment name))
  | constructor digit => inferInstanceAs (Decidable (digit.isDigit = true))
  | destructor digit => inferInstanceAs (Decidable (digit.isDigit = true))

def encoded : Member → String
  | method name => encode name
  | constructor digit => "C" ++ digit.toString
  | destructor digit => "D" ++ digit.toString

/-- The name of the member in the class `owner`. -/
def nameIn (owner : String) : Member → String
  | method name => name
  | constructor _ => owner
  | destructor _ => "~" ++ owner

end Member

/-- The symbol of a member, after what qualifies it and before what follows its name. -/
def symbolOf (qualifier : String) (scopes : List String) (member : Member) (suffix : String) :
    String :=
  "_Z" ++ qualifier ++ String.join (scopes.map encode) ++ member.encoded ++ "E" ++ suffix

/-! The items of an encoded name -/

def segmentItem (s : String) : Item := .counted (Nat.toDigits 10 s.utf8ByteSize) s.toList

def Member.item : Member → Item
  | method name => segmentItem name
  | constructor digit => .marker 'C' digit
  | destructor digit => .marker 'D' digit

theorem written_segmentItem (s : String) : (segmentItem s).written = (encode s).toList := by
  simp [segmentItem, Item.written, encode, Nat.toString_eq_repr, Nat.toList_repr]

theorem written_item (member : Member) : member.item.written = member.encoded.toList := by
  cases member with
  | method name => exact written_segmentItem name
  | constructor digit => simp [Member.item, Member.encoded, Item.written]
  | destructor digit => simp [Member.item, Member.encoded, Item.written]

theorem rowBytes_segments (scopes : List String) :
    rowBytes (scopes.map segmentItem) = bytes (String.join (scopes.map encode)).toList := by
  induction scopes with
  | nil => rfl
  | cons s scopes ih =>
    rw [rowBytes] at ih ⊢
    rw [List.map_cons, List.flatMap_cons, ih, Item.bytes, written_segmentItem, List.map_cons,
      String.join_cons, String.toList_append, bytes_append]

/-- What stands after a plain segment does not matter. -/
theorem IsPlainSegment.fits {s : String} (h : IsPlainSegment s) (first : Bool)
    (after : List UInt8) : (segmentItem s).Fits first after := by
  refine ⟨Nat.toDigits_ne_nil, ?_, ?_, ?_⟩
  · intro c hc
    exact Nat.isDigit_of_mem_toDigits (by decide) (Nat.le_refl 10) hc
  · obtain ⟨b, hb, hplain⟩ := h
    rintro ⟨d, hd, hdigit⟩
    rw [List.head?_append, Option.mem_def.mp hb] at hd
    obtain rfl := Option.mem_some.mp hd
    exact hplain hdigit
  · rw [length_bytes, byteLength_toList, Nat.ofDigitChars_ten_toDigits]

theorem Member.Valid.fits {member : Member} (h : member.Valid) (after : List UInt8) :
    member.item.Fits false after := by
  cases member with
  | method name => exact IsPlainSegment.fits h false after
  | constructor digit => exact ⟨rfl, .inl rfl, h⟩
  | destructor digit => exact ⟨rfl, .inr rfl, h⟩

/-- Nothing is read from a character on that starts neither a size nor a marker. -/
theorem row_nil_of_head {first : Bool} {cs : List Char}
    (h : ∀ c ∈ cs.head?, c.isDigit = false ∧ c ≠ 'C' ∧ c ≠ 'D') : Row first [] (bytes cs) := by
  intro item after hbytes hfits
  cases cs with
  | nil =>
    have hpos := hfits.length_bytes_pos
    have hlength := congrArg List.length hbytes
    rw [bytes_nil, List.length_nil, List.length_append] at hlength
    omega
  | cons c cs =>
    obtain ⟨hdigit, hC, hD⟩ := h c rfl
    have hkind : StartsWithDigit (item.bytes ++ after) ↔ _ := hfits.startsWithDigit_iff
    rw [← hbytes, bytes_cons, startsWithDigit_utf8EncodeChar_append, hdigit] at hkind
    cases item with
    | counted digits text => exact absurd (hkind.mpr ⟨digits, text, rfl⟩) (by decide)
    | marker letter digit =>
      obtain ⟨rfl, -⟩ : c = letter ∧ _ := eq_of_utf8EncodeChar_append (by
        simpa [Item.bytes, Item.written] using hbytes)
      rcases hfits.2.1 with rfl | rfl
      · exact hC rfl
      · exact hD rfl

theorem row_segments {scopes : List String} {items : List Item} {rest : List UInt8}
    (hscopes : ∀ s ∈ scopes, IsPlainSegment s) (hrow : Row false items rest) :
    Row false (scopes.map segmentItem ++ items) rest := by
  induction scopes with
  | nil => exact hrow
  | cons s scopes ih =>
    have hs : IsPlainSegment s := hscopes s List.mem_cons_self
    have hrest : ∀ s' ∈ scopes, IsPlainSegment s' :=
      fun s' hs' => hscopes s' (List.mem_cons_of_mem s hs')
    exact ⟨hs.fits false _, ih hrest⟩

theorem readItems_segments (previous : List Char) (scopes : List String) (items : List Item) :
    readItems previous (scopes.map segmentItem ++ items) =
      scopes.map String.toList ++
        readItems ((scopes.getLast?.map String.toList).getD previous) items := by
  induction scopes generalizing previous with
  | nil => rfl
  | cons s scopes ih =>
    have hs := ih s.toList
    have hlast : (((s :: scopes).getLast?).map String.toList).getD previous =
        ((scopes.getLast?).map String.toList).getD s.toList := by
      rw [List.getLast?_cons]
      cases scopes.getLast? <;> rfl
    rw [hlast, List.map_cons, List.map_cons, List.cons_append, List.cons_append, readItems]
    exact congrArg _ hs

theorem segment_item (member : Member) (owner : String) :
    member.item.segment owner.toList = (member.nameIn owner).toList := by
  cases member with
  | method name => rfl
  | constructor digit => rfl
  | destructor digit => simp [Member.item, Member.nameIn, Item.segment]

/-! Whole symbols -/

theorem rowBytes_items (scopes : List String) (member : Member) :
    rowBytes (scopes.map segmentItem ++ [member.item]) =
      bytes (String.join (scopes.map encode)).toList ++ bytes member.encoded.toList := by
  have hlast : member.item.bytes = bytes member.encoded.toList :=
    congrArg bytes (written_item member)
  rw [← rowBytes_segments, ← hlast]
  simp [rowBytes]

/-- What starts with a segment after a part without digits splits there. -/
theorem exists_split_of_segments {raw qualifier : String} {scopes : List String}
    {items : List Item} {rest : List Char} (hraw : bytes raw.toList = bytes mark ++
      (bytes qualifier.toList ++ (rowBytes (scopes.map segmentItem ++ items) ++ bytes rest)))
    (hqualifier : ∀ c ∈ qualifier.toList, c.isDigit = false) (hne : scopes ≠ [])
    (hscopes : ∀ s ∈ scopes, IsPlainSegment s) (hitems : Row false items (bytes rest)) :
    ∃ s : Split raw, s.items = scopes.map segmentItem ++ items := by
  have hrow : Row false (scopes.map segmentItem ++ items) (bytes rest) :=
    row_segments hscopes hitems
  obtain ⟨s, ss, rfl⟩ := List.exists_cons_of_ne_nil hne
  refine ⟨{
    junk := bytes qualifier.toList
    items := (s :: ss).map segmentItem ++ items
    rest := bytes rest
    whole := hraw
    junk_plain := forall_not_isDigitByte hqualifier
    junk_longest := ?_
    row := ⟨(hscopes s List.mem_cons_self).fits true _, hrow.2⟩ }, rfl⟩
  -- The count of the outermost scope comes first.
  intro b hb
  have hstart : StartsWithDigit ((segmentItem s).bytes ++
      (rowBytes (ss.map segmentItem ++ items) ++ bytes rest)) :=
    hrow.1.startsWithDigit_iff.mpr ⟨_, _, rfl⟩
  refine hstart.isDigitByte ?_
  simpa [rowBytes] using hb

variable {qualifier suffix : String} {scopes : List String} {member : Member}

theorem exists_split_symbolOf (hqualifier : ∀ c ∈ qualifier.toList, c.isDigit = false)
    (hne : scopes ≠ []) (hscopes : ∀ s ∈ scopes, IsPlainSegment s) (hmember : member.Valid) :
    ∃ s : Split (symbolOf qualifier scopes member suffix),
      s.items = scopes.map segmentItem ++ [member.item] := by
  have hitem : Row false [member.item] (bytes ('E' :: suffix.toList)) :=
    ⟨hmember.fits _, row_nil_of_head (by simp)⟩
  refine exists_split_of_segments ?_ hqualifier hne hscopes hitem
  rw [rowBytes_items]
  simp [symbolOf, mark]

theorem segments_symbolOf (hqualifier : ∀ c ∈ qualifier.toList, c.isDigit = false)
    (hne : scopes ≠ []) (hscopes : ∀ s ∈ scopes, IsPlainSegment s) (hmember : member.Valid)
    (hsize : (symbolOf qualifier scopes member suffix).utf8ByteSize < 2 ^ 63) :
    segments (symbolOf qualifier scopes member suffix) =
      scopes ++ [member.nameIn (scopes.getLast hne)] := by
  obtain ⟨s, hitems⟩ : ∃ s : Split (symbolOf qualifier scopes member suffix),
      s.items = scopes.map segmentItem ++ [member.item] :=
    exists_split_symbolOf hqualifier hne hscopes hmember
  rw [segments_of_split s hsize, hitems, readItems_segments,
    List.getLast?_eq_some_getLast hne, Option.map_some, Option.getD_some, readItems, readItems,
    segment_item]
  simp

theorem owner?_ofSegments {ss : List String} (hne : ss ≠ []) (s : String) {name : QualifiedName}
    (h : name.segments = ss ++ [s]) : name.owner? = some (ss.getLast hne) := by
  rw [QualifiedName.owner?, h, List.dropLast_concat, List.getLast?_eq_some_getLast hne]

theorem methodCount_classify_append {f : FunctionInfo} {name : QualifiedName}
    (h : f.name.owner? = some name.last) (before after : List FunctionInfo)
    (overrides : OverrideTable) :
    (classify name (before ++ f :: after) overrides).methodCount =
      (classify name (before ++ after) overrides).methodCount + 1 := by
  simp [classify, ClassStatus.ofOwned, ownedBy, h]
  omega

/-- Encoding a member of a class and decoding the symbol gives the scopes and the name of the
member, and the member counts for every class of that short name. -/
theorem decode_symbolOf (qualifier suffix : String) (scopes : List String) (member : Member)
    (hqualifier : ∀ c ∈ qualifier.toList, c.isDigit = false) (hne : scopes ≠ [])
    (hscopes : ∀ s ∈ scopes, IsPlainSegment s) (hmember : member.Valid)
    (hsize : (symbolOf qualifier scopes member suffix).utf8ByteSize < 2 ^ 63) :
    (decode (symbolOf qualifier scopes member suffix)).segments =
        scopes ++ [member.nameIn (scopes.getLast hne)] ∧
      (decode (symbolOf qualifier scopes member suffix)).owner? = some (scopes.getLast hne) ∧
      ∀ (f : FunctionEntry) (name : QualifiedName),
        f.symbol = symbolOf qualifier scopes member suffix →
        name.last = scopes.getLast hne →
        ∀ (before after : List FunctionInfo) (overrides : OverrideTable),
          (classify name (before ++ f.resolve :: after) overrides).methodCount =
            (classify name (before ++ after) overrides).methodCount + 1 := by
  have hsegments := segments_symbolOf hqualifier hne hscopes hmember hsize
  have hdecode : (decode (symbolOf qualifier scopes member suffix)).segments =
      scopes ++ [member.nameIn (scopes.getLast hne)] := by
    rw [segments_decode, hsegments, if_neg (by simp)]
  have howner := owner?_ofSegments hne _ hdecode
  refine ⟨hdecode, howner, ?_⟩
  intro f name hsymbol hname before after overrides
  refine methodCount_classify_append ?_ before after overrides
  rw [FunctionEntry.resolve, hsymbol, howner, hname]

/-- Nothing in a segment is taken for a marker, a count or the end of the name. -/
theorem decode_symbolOf_methodLikeMarker :
    symbolOf "NK" ["E3", "C1é"] (.method "D2") "v" = "_ZNK2E34C1é2D2Ev" ∧
      (∀ s ∈ ["E3", "C1é"], IsPlainSegment s) ∧ (Member.method "D2").Valid ∧
      (decode "_ZNK2E34C1é2D2Ev").segments = ["E3", "C1é", "D2"] ∧
      (decode "_ZNK2E34C1é2D2Ev").owner? = some "C1é" ∧
      (classify (.ofSegments ["E3", "C1é"])
        [FunctionEntry.resolve ⟨0, .unknown, 4, "_ZNK2E34C1é2D2Ev"⟩] .empty).methodCount = 1 := by
  have hsymbol : symbolOf "NK" ["E3", "C1é"] (.method "D2") "v" = "_ZNK2E34C1é2D2Ev" := by
    decide +kernel
  have hqualifier : ∀ c ∈ "NK".toList, c.isDigit = false := by simp
  have hscopes : ∀ s ∈ ["E3", "C1é"], IsPlainSegment s := by decide
  have hmember : (Member.method "D2").Valid := by decide
  have hsize : (symbolOf "NK" ["E3", "C1é"] (.method "D2") "v").utf8ByteSize < 2 ^ 63 := by
    rw [hsymbol]
    decide
  have hdecode := decode_symbolOf "NK" "v" ["E3", "C1é"] (.method "D2") hqualifier
    (List.cons_ne_nil _ _) hscopes hmember hsize
  rw [hsymbol] at hdecode
  have hcount := hdecode.2.2 ⟨0, .unknown, 4, "_ZNK2E34C1é2D2Ev"⟩ (.ofSegments ["E3", "C1é"])
    rfl rfl [] [] .empty
  exact ⟨hsymbol, hscopes, hmember, hdecode.1, hdecode.2.1, hcount⟩

end DecompTracker.Symbol
