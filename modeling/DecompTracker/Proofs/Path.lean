import DecompTracker.Path
import DecompTracker.Proofs.Text.Lines

/-! Joined and stripped paths. The pieces of a relative path come after pieces that the path it is
joined to decides alone. So do its components, and what is left after the components of an absolute
path leads on from there. -/
namespace DecompTracker.Path

variable {base p : Path}

/-- The pieces that come before those of a path that is joined on. -/
def leading (base : Path) : List String :=
  if base.text = "" then []
  else if base.text.toList.getLast? = some '/' then base.pieces.dropLast
  else base.pieces

theorem not_mem_of_mem_pieces {piece : String} (h : piece ∈ p.pieces) : '/' ∉ piece.toList := by
  obtain ⟨cs, hcs, rfl⟩ := List.mem_map.mp h
  rw [String.toList_ofList]
  exact Text.not_mem_of_mem_splitChars hcs

theorem pieces_append (front back : String) :
    pieces ⟨front ++ "/" ++ back⟩ = pieces ⟨front⟩ ++ pieces ⟨back⟩ := by
  have htext : (front ++ "/" ++ back).toList = front.toList ++ '/' :: back.toList := by
    simp [String.toList_append]
  simp only [pieces, Text.splitAtChar, htext, Text.splitChars_append, List.map_append]

/-- A slash at the end is followed by an empty piece. -/
theorem exists_eq_append_slash (h : base.text.toList.getLast? = some '/') :
    ∃ front, base.text = front ++ "/" ++ "" ∧ base.pieces = pieces ⟨front⟩ ++ [""] := by
  obtain ⟨front, hfront⟩ := List.getLast?_eq_some_iff.mp h
  have htext : base.text = String.ofList front ++ "/" ++ "" := by
    apply String.toList_injective
    rw [hfront]
    simp [String.toList_append]
  refine ⟨String.ofList front, htext, ?_⟩
  have hbase : base = ⟨String.ofList front ++ "/" ++ ""⟩ := congrArg Path.mk htext
  rw [hbase, pieces_append]
  rfl

/-- The three ways in which a relative path is joined. -/
theorem join_cases (base : Path) (h : p.isAbsolute = false) :
    (base.text = "" ∧ base.join p = p) ∨
    (base.text ≠ "" ∧ base.text.toList.getLast? = some '/' ∧
      base.join p = ⟨base.text ++ p.text⟩) ∨
    (base.text ≠ "" ∧ base.text.toList.getLast? ≠ some '/' ∧
      base.join p = ⟨base.text ++ "/" ++ p.text⟩) := by
  rw [join, h]
  by_cases hempty : base.text = ""
  · exact .inl ⟨hempty, by simp [hempty]⟩
  · by_cases hslash : base.text.toList.getLast? = some '/'
    · exact .inr (.inl ⟨hempty, hslash, by simp [hslash]⟩)
    · exact .inr (.inr ⟨hempty, hslash, by simp [hempty, hslash]⟩)

theorem pieces_join (h : p.isAbsolute = false) :
    (base.join p).pieces = base.leading ++ p.pieces := by
  unfold leading
  rcases join_cases base h with ⟨hempty, he⟩ | ⟨hempty, hslash, he⟩ | ⟨hempty, hslash, he⟩
  · rw [he, if_pos hempty, List.nil_append]
  · obtain ⟨front, htext, hpieces⟩ := exists_eq_append_slash hslash
    rw [he, if_neg hempty, if_pos hslash, hpieces, List.dropLast_concat, htext, String.append_empty,
      pieces_append]
  · rw [he, if_neg hempty, if_neg hslash, pieces_append]

theorem isAbsolute_join (h : p.isAbsolute = false) :
    (base.join p).isAbsolute = base.isAbsolute := by
  have hhead (hempty : base.text ≠ "") (rest : List Char) :
      (base.text.toList ++ rest).head? = base.text.toList.head? :=
    List.head?_append_of_ne_nil _ fun hnil => hempty (String.toList_eq_nil_iff.mp hnil)
  rcases join_cases base h with ⟨hempty, he⟩ | ⟨hempty, -, he⟩ | ⟨hempty, -, he⟩
  · rw [he, h, isAbsolute, hempty]
    rfl
  · rw [he, isAbsolute, isAbsolute, String.toList_append, hhead hempty]
  · rw [he, isAbsolute, isAbsolute, String.toList_append, String.toList_append, List.append_assoc,
      hhead hempty]

/-- A path that goes down from where it starts, by names only. -/
structure IsPlain (p : Path) : Prop where
  isRelative : p.isAbsolute = false
  names : ∀ piece ∈ p.pieces, isIdle piece = false ∧ piece ≠ ".."

theorem isPlain_iff : p.IsPlain ↔
    p.isAbsolute = false ∧ ∀ piece ∈ p.pieces, isIdle piece = false ∧ piece ≠ ".." :=
  ⟨fun h => ⟨h.isRelative, h.names⟩, fun h => ⟨h.1, h.2⟩⟩

instance : Decidable p.IsPlain := decidable_of_iff _ isPlain_iff.symm

theorem pieces_of_not_mem {name : String} (h : '/' ∉ name.toList) : pieces ⟨name⟩ = [name] := by
  simp [pieces, Text.splitAtChar, Text.splitChars_of_not_mem h]

/-! Components -/

/-- The components of a path apart from the one it starts from. -/
def steps (p : Path) : List Component := p.pieces.filterMap component?

@[simp] theorem component?_eq_none_iff {piece : String} :
    component? piece = none ↔ isIdle piece = true := by
  unfold component? isIdle
  split <;> simp_all

theorem components_of_isAbsolute (h : p.isAbsolute = true) : p.components = .root :: p.steps := by
  rw [components, start?, if_pos h]
  rfl

theorem components_of_start? (h : p.start? = none) : p.components = p.steps := by
  rw [components, h]
  rfl

/-- A relative path says where it starts from only by a leading `.`. -/
theorem start?_eq_none (h : p.isAbsolute = false) (hdot : p.components.head? ≠ some .here) :
    p.start? = none := by
  rw [start?, h, if_neg Bool.false_ne_true, if_neg]
  intro hhead
  have hstart : p.start? = some .here := by
    rw [start?, h, if_neg Bool.false_ne_true, if_pos hhead]
  rw [components, hstart] at hdot
  exact hdot rfl

/-- Pieces that hold no slash can be told apart again after they were joined. -/
theorem pieces_ofPieces {ps : List String} (hne : ps ≠ []) (h : ∀ piece ∈ ps, '/' ∉ piece.toList) :
    (ofPieces ps).pieces = ps := by
  induction ps with
  | nil => exact absurd rfl hne
  | cons piece ps ih =>
    obtain ⟨hpiece, hps⟩ := List.forall_mem_cons.mp h
    cases ps with
    | nil => exact pieces_of_not_mem hpiece
    | cons next ps =>
      have htext : ofPieces (piece :: next :: ps) =
          ⟨piece ++ "/" ++ (ofPieces (next :: ps)).text⟩ := by
        rw [ofPieces, String.intercalate_cons_cons]
        rfl
      rw [htext, pieces_append, pieces_of_not_mem hpiece, ih (by simp) hps]
      rfl

/-! Idle pieces at either end, and those between the pieces that are left out, stand for no
component. -/

theorem filterMap_dropWhile_isIdle (ps : List String) :
    (ps.dropWhile isIdle).filterMap component? = ps.filterMap component? := by
  induction ps with
  | nil => rfl
  | cons piece ps ih =>
    cases hidle : isIdle piece with
    | true =>
      rw [List.dropWhile_cons_of_pos hidle, ih,
        List.filterMap_cons_none (component?_eq_none_iff.mpr hidle)]
    | false => rw [List.dropWhile_cons_of_neg (by simp [hidle])]

theorem filterMap_dropIdleEnd (ps : List String) :
    (dropIdleEnd ps).filterMap component? = ps.filterMap component? := by
  rw [dropIdleEnd, List.filterMap_reverse, filterMap_dropWhile_isIdle, List.filterMap_reverse,
    List.reverse_reverse]

theorem filterMap_dropFilled (n : Nat) (ps : List String) :
    (dropFilled n ps).filterMap component? = (ps.filterMap component?).drop n := by
  induction ps generalizing n with
  | nil => cases n <;> rfl
  | cons piece ps ih =>
    cases n with
    | zero => rfl
    | succ n =>
      rw [dropFilled]
      cases hidle : isIdle piece with
      | true => rw [if_pos rfl, ih, List.filterMap_cons_none (component?_eq_none_iff.mpr hidle)]
      | false =>
        obtain ⟨c, hc⟩ : ∃ c, component? piece = some c :=
          Option.ne_none_iff_exists'.mp fun hnone => by simp [hidle] at hnone
        rw [if_neg Bool.false_ne_true, ih, List.filterMap_cons_some hc, List.drop_succ_cons]

theorem dropFilled_suffix (n : Nat) (ps : List String) : dropFilled n ps <:+ ps := by
  induction ps generalizing n with
  | nil => cases n <;> exact List.suffix_rfl
  | cons piece ps ih =>
    cases n with
    | zero => exact List.suffix_rfl
    | succ n =>
      rw [dropFilled]
      split
      · exact (ih (n + 1)).trans (List.suffix_cons piece ps)
      · exact (ih n).trans (List.suffix_cons piece ps)

/-- What is left without the idle pieces at both ends starts with a piece that is not idle. -/
theorem isIdle_of_head?_dropIdleEnd {ps : List String} {piece : String}
    (h : (dropIdleEnd (ps.dropWhile isIdle)).head? = some piece) : isIdle piece = false := by
  cases hdrop : ps.dropWhile isIdle with
  | nil =>
    rw [hdrop] at h
    exact nomatch h
  | cons first rest =>
    have hfirst : isIdle first = false := by
      have := List.head?_dropWhile_not isIdle ps
      simpa [hdrop] using this
    have hkept : dropIdleEnd (first :: rest) = first :: dropIdleEnd rest :=
      Text.rdropWhile_cons_of_neg hfirst rest
    rw [hdrop, hkept] at h
    rwa [← Option.some.inj h]

/-- An absolute path has nothing before its first slash. -/
theorem head?_pieces_of_isAbsolute (h : p.isAbsolute = true) : p.pieces.head? = some "" := by
  obtain ⟨rest, hrest⟩ : ∃ rest, p.text.toList = '/' :: rest :=
    List.head?_eq_some_iff.mp (beq_iff_eq.mp h)
  rw [pieces, Text.splitAtChar, hrest, Text.splitChars, if_pos rfl]
  rfl

/-- Pieces of which the first is not idle make up a relative path, and nothing says where it starts
from. -/
theorem start?_ofPieces {ps : List String} (hslash : ∀ piece ∈ ps, '/' ∉ piece.toList)
    (hhead : ∀ piece, ps.head? = some piece → isIdle piece = false) :
    (ofPieces ps).isAbsolute = false ∧ (ofPieces ps).start? = none := by
  cases ps with
  | nil => decide
  | cons first rest =>
    have hpieces := pieces_ofPieces (List.cons_ne_nil first rest) hslash
    obtain ⟨hempty, hdot⟩ : first ≠ "" ∧ first ≠ "." := by simpa [isIdle] using hhead first rfl
    have hrelative : (ofPieces (first :: rest)).isAbsolute = false := by
      by_contra habs
      have hnone := head?_pieces_of_isAbsolute (eq_true_of_ne_false habs)
      rw [hpieces] at hnone
      exact hempty (Option.some.inj hnone)
    refine ⟨hrelative, ?_⟩
    rw [start?, hrelative, hpieces, if_neg Bool.false_ne_true, if_neg]
    exact fun hhere => hdot (Option.some.inj hhere)

theorem steps_ofPieces {ps : List String} (hslash : ∀ piece ∈ ps, '/' ∉ piece.toList) :
    (ofPieces ps).steps = ps.filterMap component? := by
  cases ps with
  | nil => decide
  | cons first rest => rw [steps, pieces_ofPieces (List.cons_ne_nil first rest) hslash]

theorem filterMap_leading (base : Path) : base.leading.filterMap component? = base.steps := by
  unfold leading steps
  split
  · rename_i hempty
    rw [show base = ⟨""⟩ from congrArg Path.mk hempty]
    decide
  · split
    · rename_i hslash
      obtain ⟨front, -, hpieces⟩ := exists_eq_append_slash hslash
      rw [hpieces, List.dropLast_concat, List.filterMap_append]
      exact (List.append_nil _).symm
    · rfl

/-- Joining goes on where the path joined to leads. -/
theorem components_join (hbase : base.isAbsolute = true) (hp : p.isAbsolute = false) :
    (base.join p).components = base.components ++ p.steps := by
  have hjoin : (base.join p).isAbsolute = true := (isAbsolute_join hp).trans hbase
  rw [components_of_isAbsolute hjoin, components_of_isAbsolute hbase, steps, pieces_join hp,
    List.filterMap_append, filterMap_leading]
  rfl

/-- What is left after the components of an absolute path is a relative path that says nothing about
where it starts from, and the path it was left from consists of both. -/
theorem stripPrefix?_of_isPrefix (hbase : base.isAbsolute = true) (hp : p.isAbsolute = true)
    (hstarts : base.components <+: p.components) :
    ∃ rest : Path, p.stripPrefix? base = some rest ∧ rest.isAbsolute = false ∧
      rest.start? = none ∧ base.components ++ rest.steps = p.components := by
  let kept := dropIdleEnd ((dropFilled base.steps.length p.pieces).dropWhile isIdle)
  have hslash : ∀ piece ∈ kept, '/' ∉ piece.toList := fun piece hpiece =>
    have hmem := (List.rdropWhile_prefix isIdle _).subset hpiece
    have hsuffix := (List.dropWhile_suffix isIdle).trans
      (dropFilled_suffix base.steps.length p.pieces)
    not_mem_of_mem_pieces (hsuffix.subset hmem)
  have hstart := start?_ofPieces hslash fun piece => isIdle_of_head?_dropIdleEnd
  have hstrip : p.stripPrefix? base = some (ofPieces kept) := by
    rw [stripPrefix?, if_pos (List.isPrefixOf_iff_prefix.mpr hstarts),
      components_of_isAbsolute hbase, List.isEmpty_cons, if_neg Bool.false_ne_true]
    rfl
  have hsteps : base.steps ++ (ofPieces kept).steps = p.steps := by
    rw [components_of_isAbsolute hbase, components_of_isAbsolute hp, List.prefix_cons_inj]
      at hstarts
    rw [steps_ofPieces hslash, filterMap_dropIdleEnd, filterMap_dropWhile_isIdle,
      filterMap_dropFilled]
    exact List.prefix_iff_eq_append.mp hstarts
  refine ⟨ofPieces kept, hstrip, hstart.1, hstart.2, ?_⟩
  rw [components_of_isAbsolute hbase, components_of_isAbsolute hp, List.cons_append, hsteps]

theorem stripPrefix?_of_not_isPrefix (h : ¬ base.components <+: p.components) :
    p.stripPrefix? base = none := by
  rw [stripPrefix?, if_neg (by rwa [List.isPrefixOf_iff_prefix])]

end DecompTracker.Path
