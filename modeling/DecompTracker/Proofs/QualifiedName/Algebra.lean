import DecompTracker.Proofs.QualifiedName.Canonical

/-! Reading, writing and appending names. Exactly the canonical names are read back from what is
written of them. A text with a separator in the middle reads as the two names around it, unless the
first of them ends with a colon, which then belongs to the separator. -/
namespace DecompTracker.QualifiedName

/-- The segments of a name followed by those of another one. -/
def append (name other : QualifiedName) : QualifiedName :=
  ⟨name.segments ++ other.segments, by simp [name.segments_ne_nil]⟩

instance : Append QualifiedName := ⟨append⟩

variable {name other : QualifiedName}

theorem segments_append (name other : QualifiedName) :
    (name ++ other).segments = name.segments ++ other.segments := rfl

theorem joined_append (name other : QualifiedName) :
    (name ++ other).joined = name.joined ++ separator ++ other.joined :=
  joined_of_segments_eq_append rfl other.segments_ne_nil

theorem canonical_iff :
    name.Canonical ↔ (∀ segment ∈ name.segments, ¬ separator.toList <:+: segment.toList) ∧
      ∀ segment ∈ name.segments.dropLast, segment.toList.getLast? ≠ some ':' := by
  constructor
  · intro h
    refine ⟨fun segment hs => h.uncut _ (List.mem_map_of_mem hs), fun segment hs => h.ends _ ?_⟩
    rw [← List.map_dropLast]
    exact List.mem_map_of_mem hs
  · rintro ⟨huncut, hends⟩
    refine ⟨List.forall_mem_map.mpr huncut, ?_⟩
    rw [← List.map_dropLast]
    exact List.forall_mem_map.mpr hends

theorem parse_joined_eq_iff : parse name.joined = name ↔ name.Canonical := by
  constructor
  · intro h
    rw [← h]
    exact canonical_parse _
  · exact parse_joined

/-- Between canonical names only a colon before the separator is read in another way. -/
theorem canonical_append_iff (hname : name.Canonical) (hother : other.Canonical) :
    (name ++ other).Canonical ↔ name.last.toList.getLast? ≠ some ':' := by
  obtain ⟨huncut, hends⟩ := canonical_iff.mp hname
  obtain ⟨huncut', hends'⟩ := canonical_iff.mp hother
  have hlast : name.segments = name.segments.dropLast ++ [name.last] :=
    (List.dropLast_append_getLast name.segments_ne_nil).symm
  rw [canonical_iff, segments_append, List.dropLast_append_of_ne_nil other.segments_ne_nil]
  constructor
  · intro h
    refine h.2 name.last (List.mem_append_left _ ?_)
    exact List.getLast_mem name.segments_ne_nil
  · intro hcolon
    refine ⟨fun segment hs => ?_, fun segment hs => ?_⟩
    · exact (List.mem_append.mp hs).elim (huncut segment) (huncut' segment)
    · rw [hlast, List.append_assoc, List.mem_append, List.singleton_append, List.mem_cons] at hs
      rcases hs with hs | rfl | hs
      · exact hends segment hs
      · exact hcolon
      · exact hends' segment hs

/-- A text is the written form of the name read from it. A name is read back from its written form
exactly when no segment holds a separator and none but the last ends with a colon, as in every name
that was read and every beginning of one. Reading goes through a separator unless a colon stands
before it. -/
theorem parse_laws :
    (∀ written, (parse written).joined = written) ∧
    (∀ name, parse name.joined = name ↔ name.Canonical) ∧
    (∀ name : QualifiedName, name.Canonical ↔
      (∀ segment ∈ name.segments, ¬ separator.toList <:+: segment.toList) ∧
        ∀ segment ∈ name.segments.dropLast, segment.toList.getLast? ≠ some ':') ∧
    (∀ written, (parse written).Canonical ∧ ∀ depth, ((parse written).lead depth).Canonical) ∧
    ∀ x y, parse (x ++ separator ++ y) = parse x ++ parse y ↔
      (parse x).last.toList.getLast? ≠ some ':' := by
  refine ⟨joined_parse, fun name => parse_joined_eq_iff, fun name => canonical_iff,
    fun written => ⟨canonical_parse written, fun depth => ?_⟩, fun x y => ?_⟩
  · exact (canonical_parse written).of_isLeadOf (List.take_prefix _ _)
  · have hjoined : (parse x ++ parse y).joined = x ++ separator ++ y := by
      rw [joined_append, joined_parse, joined_parse]
    rw [← hjoined, parse_joined_eq_iff,
      canonical_append_iff (canonical_parse x) (canonical_parse y)]

end DecompTracker.QualifiedName
