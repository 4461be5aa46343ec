import DecompTracker.Proofs.QualifiedName.Leads

/-! Names and their written forms. Writing what was read gives the text back, and reading what was
written gives the name back when it is canonical, as every name that was read and every lead of one
is. So canonical names are told apart by how they are written. -/
namespace DecompTracker.QualifiedName

/-- Two colons side by side. -/
def Cuttable (cs : List Char) : Prop := [':', ':'] <:+: cs

/-- The pieces of a cut: none can be cut again, and none but the last ends with a colon, since the
leftmost pair of colons would then lie further left. -/
structure CutForm (pieces : List (List Char)) : Prop where
  uncut : ∀ piece ∈ pieces, ¬ Cuttable piece
  ends : ∀ piece ∈ pieces.dropLast, piece.getLast? ≠ some ':'

theorem cuttable_cons_iff {c : Char} {cs : List Char} :
    Cuttable (c :: cs) ↔ (c = ':' ∧ cs.head? = some ':') ∨ Cuttable cs := by
  rw [Cuttable, List.infix_cons_iff, List.cons_prefix_cons, ← Cuttable]
  refine or_congr_left ⟨?_, ?_⟩
  · rintro ⟨rfl, hp⟩
    obtain ⟨rest, rfl⟩ := hp
    exact ⟨rfl, rfl⟩
  · rintro ⟨rfl, hh⟩
    obtain ⟨rest, rfl⟩ := List.head?_eq_some_iff.mp hh
    exact ⟨rfl, rest, rfl⟩

theorem not_cuttable_nil : ¬ Cuttable [] := by simp [Cuttable]

/-- Away from a pair of colons a cut moves on by one character. -/
theorem cutScopes_cons {c : Char} {cs : List Char} (h : ¬ (c = ':' ∧ cs.head? = some ':')) :
    cutScopes (c :: cs) = Text.consHead c (cutScopes cs) := by
  rw [cutScopes]
  rintro rest rfl rfl
  exact h ⟨rfl, rfl⟩

theorem intercalate_cutScopes (cs : List Char) :
    [':', ':'].intercalate (cutScopes cs) = cs := by
  fun_induction cutScopes cs with
  | case1 cs ih =>
    rw [List.intercalate_cons_of_ne_nil (cutScopes_ne_nil cs), ih]
    rfl
  | case2 c cs _ ih =>
    obtain ⟨piece, pieces, he⟩ := List.exists_cons_of_ne_nil (cutScopes_ne_nil cs)
    rw [he] at ih ⊢
    rw [Text.consHead, List.intercalate_cons_cons_left, ih]
  | case3 => rfl

theorem head?_of_cutScopes_eq {cs piece : List Char} {pieces : List (List Char)}
    (h : cutScopes cs = piece :: pieces) :
    cs.head? = if piece = [] then (if pieces = [] then none else some ':') else piece.head? := by
  rw [← intercalate_cutScopes cs, h]
  cases piece with
  | nil => cases pieces <;> simp
  | cons c piece => rw [List.intercalate_cons_cons_left]; simp

theorem cutForm_cutScopes (cs : List Char) : CutForm (cutScopes cs) := by
  fun_induction cutScopes cs with
  | case1 cs ih =>
    refine ⟨List.forall_mem_cons.mpr ⟨not_cuttable_nil, ih.uncut⟩, ?_⟩
    rw [List.dropLast_cons_of_ne_nil (cutScopes_ne_nil cs)]
    exact List.forall_mem_cons.mpr ⟨by simp, ih.ends⟩
  | case2 c cs hc ih =>
    have hn : ¬ (c = ':' ∧ cs.head? = some ':') := by
      rintro ⟨rfl, hh⟩
      obtain ⟨rest, hrest⟩ := List.head?_eq_some_iff.mp hh
      exact hc rest rfl hrest
    obtain ⟨piece, pieces, he⟩ := List.exists_cons_of_ne_nil (cutScopes_ne_nil cs)
    have hhead := head?_of_cutScopes_eq he
    rw [he] at ih ⊢
    rw [Text.consHead]
    obtain ⟨hpiece, hpieces⟩ := List.forall_mem_cons.mp ih.uncut
    constructor
    · refine List.forall_mem_cons.mpr ⟨?_, hpieces⟩
      rw [cuttable_cons_iff]
      rintro (⟨rfl, hp⟩ | hp)
      · cases piece with
        | nil => simp at hp
        | cons c piece => exact hn ⟨rfl, hhead.trans hp⟩
      · exact hpiece hp
    · cases pieces with
      | nil => simp
      | cons next pieces =>
        have hends := ih.ends
        rw [List.dropLast_cons_of_ne_nil (by simp)] at hends ⊢
        obtain ⟨hend, hrest⟩ := List.forall_mem_cons.mp hends
        refine List.forall_mem_cons.mpr ⟨?_, hrest⟩
        cases piece with
        | nil => simpa using fun hcolon => hn ⟨hcolon, hhead⟩
        | cons c piece => exact hend
  | case3 => exact ⟨by simpa using not_cuttable_nil, by simp⟩

/-- A cut finds a piece that cannot be cut and does not end with a colon. -/
theorem cutScopes_append {piece : List Char} (hu : ¬ Cuttable piece)
    (he : piece.getLast? ≠ some ':') (rest : List Char) :
    cutScopes (piece ++ ':' :: ':' :: rest) = piece :: cutScopes rest := by
  induction piece with
  | nil => rfl
  | cons c piece ih =>
    rw [cuttable_cons_iff, not_or] at hu
    cases piece with
    | nil =>
      have hc : c ≠ ':' := by simpa using he
      rw [List.cons_append, cutScopes_cons (fun h => hc h.1), ih hu.2 (by simp), Text.consHead]
    | cons d piece =>
      have hd : ¬ (c = ':' ∧ (d :: piece ++ ':' :: ':' :: rest).head? = some ':') := hu.1
      rw [List.cons_append, cutScopes_cons hd, ih hu.2 he, Text.consHead]

theorem cutScopes_of_uncut {piece : List Char} (hu : ¬ Cuttable piece) :
    cutScopes piece = [piece] := by
  induction piece with
  | nil => rfl
  | cons c piece ih =>
    rw [cuttable_cons_iff, not_or] at hu
    rw [cutScopes_cons hu.1, ih hu.2, Text.consHead]

theorem cutScopes_intercalate {pieces : List (List Char)} (hne : pieces ≠ [])
    (h : CutForm pieces) : cutScopes ([':', ':'].intercalate pieces) = pieces := by
  induction pieces with
  | nil => exact absurd rfl hne
  | cons piece pieces ih =>
    cases pieces with
    | nil => simpa using cutScopes_of_uncut (h.uncut piece (by simp))
    | cons next pieces =>
      have hrest : CutForm (next :: pieces) :=
        ⟨fun p hp => h.uncut p (List.mem_cons_of_mem _ hp),
          fun p hp => h.ends p (by simpa using .inr hp)⟩
      rw [List.intercalate_cons_cons, List.append_assoc]
      exact (cutScopes_append (h.uncut piece (by simp)) (h.ends piece (by simp)) _).trans
        (congrArg _ (ih (by simp) hrest))

/-- A name that is read back from its written form. -/
def Canonical (name : QualifiedName) : Prop := CutForm (name.segments.map String.toList)

theorem toList_joined (name : QualifiedName) :
    name.joined.toList = [':', ':'].intercalate (name.segments.map String.toList) := by
  rw [joined, String.toList_intercalate]
  rfl

theorem toList_segments_parse (written : String) :
    (parse written).segments.map String.toList = cutScopes written.toList := by
  simp [segments_parse, Function.comp_def]

theorem joined_parse (written : String) : (parse written).joined = written := by
  rw [← String.toList_inj, toList_joined, toList_segments_parse, intercalate_cutScopes]

theorem parse_injective : Function.Injective parse := fun a b h => by
  rw [← joined_parse a, h, joined_parse]

theorem canonical_parse (written : String) : (parse written).Canonical := by
  rw [Canonical, toList_segments_parse]
  exact cutForm_cutScopes _

theorem parse_joined {name : QualifiedName} (h : name.Canonical) : parse name.joined = name := by
  have hne : name.segments.map String.toList ≠ [] := by simpa using name.segments_ne_nil
  apply eq_of_segments_eq
  rw [segments_parse, toList_joined, cutScopes_intercalate hne h]
  simp [Function.comp_def]

theorem Canonical.of_isLeadOf {p name : QualifiedName} (h : name.Canonical)
    (hp : p.IsLeadOf name) : p.Canonical := by
  obtain ⟨rest, hrest⟩ := hp
  rw [Canonical, ← hrest, List.map_append] at h
  refine ⟨fun piece hpiece => h.uncut piece (List.mem_append_left _ hpiece), fun piece hpiece => ?_⟩
  refine h.ends piece ?_
  cases rest with
  | nil => simpa using hpiece
  | cons short rest =>
    rw [List.dropLast_append_of_ne_nil (by simp)]
    exact List.mem_append_left _ (List.dropLast_subset _ hpiece)

theorem Canonical.eq_of_joined_eq {p q : QualifiedName} (hp : p.Canonical) (hq : q.Canonical)
    (h : p.joined = q.joined) : p = q := by
  rw [← parse_joined hp, ← parse_joined hq, h]

end DecompTracker.QualifiedName
