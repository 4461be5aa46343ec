import DecompTracker.FileTree
import DecompTracker.Proofs.Path
import Mathlib.Data.List.Basic
import Mathlib.Data.List.Induction

/-! Trees in which files are written and directories are made. What lies somewhere stays there, though
a file may get other bytes, so whatever could be walked to can still be walked to. The files of a
directory are listed in one order only. Trees whose files all lie in directories stay so, and in them
everything is reached by the names on the way to it. -/
namespace DecompTracker.FileTree

variable {t t' t'' : FileTree} {place other : Place} {bytes : ByteArray}

theorem isSome_get?_of_isDirectoryAt (h : t.isDirectoryAt place = true) :
    (t.get? place).isSome = true := by
  unfold isDirectoryAt at h
  split at h
  · simp [*]
  · cases h

theorem isSome_get?_of_fileAt? (h : (t.fileAt? place).isSome = true) :
    (t.get? place).isSome = true := by
  unfold fileAt? at h
  split at h
  · simp [*]
  · cases h

/-- Directories stay directories, and nothing is taken away. -/
structure Grown (t t' : FileTree) : Prop where
  isDirectoryAt : ∀ place, t.isDirectoryAt place = true → t'.isDirectoryAt place = true
  isSome_get? : ∀ place, (t.get? place).isSome = true → (t'.get? place).isSome = true

theorem Grown.refl (t : FileTree) : t.Grown t := ⟨fun _ h => h, fun _ h => h⟩

theorem Grown.trans (h : t.Grown t') (h' : t'.Grown t'') : t.Grown t'' :=
  ⟨fun place hp => h'.isDirectoryAt place (h.isDirectoryAt place hp),
    fun place hp => h'.isSome_get? place (h.isSome_get? place hp)⟩

theorem Grown.step (h : t.Grown t') {start next : Place} {piece : String}
    (hs : t.step start piece = some next) : t'.step start piece = some next := by
  unfold FileTree.step at hs ⊢
  split at hs
  · rename_i hstart
    rw [if_pos (h.isDirectoryAt start hstart)]
    split at hs
    · rename_i hidle
      rwa [if_pos hidle]
    · rename_i hidle
      rw [if_neg hidle]
      split at hs
      · rename_i hparent
        rwa [if_pos hparent]
      · rename_i hparent
        rw [if_neg hparent]
        split at hs
        · rename_i hthere
          rwa [if_pos (h.isSome_get? _ hthere)]
        · cases hs
  · cases hs

theorem Grown.walk (h : t.Grown t') {pieces : List String} {start next : Place}
    (hw : t.walk start pieces = some next) : t'.walk start pieces = some next := by
  induction pieces generalizing start with
  | nil => exact hw
  | cons piece pieces ih =>
    rw [FileTree.walk, List.foldlM_cons, Option.bind_eq_bind, Option.bind_eq_some_iff] at hw
    obtain ⟨between, hstep, hwalk⟩ := hw
    rw [FileTree.walk, List.foldlM_cons, h.step hstep]
    exact ih hwalk

theorem walk_concat (t : FileTree) (start : Place) (pieces : List String) (piece : String) :
    t.walk start (pieces ++ [piece]) =
      (t.walk start pieces).bind fun between => t.step between piece := by
  simp [walk, List.foldlM_append]

/-- A name leads to what lies under it. -/
theorem step_of_isName {start : Place} {name : String} (hname : isName name = true)
    (hstart : t.isDirectoryAt start = true) (h : (t.get? (start ++ [name])).isSome = true) :
    t.step start name = some (start ++ [name]) := by
  simp only [isName, Bool.and_eq_true, Bool.not_eq_true', decide_eq_true_eq] at hname
  simp [step, hstart, hname, h]

/-! Files -/

theorem ne_nil_of_isDirectoryAt (h : t.isDirectoryAt place = false) : place ≠ [] := by
  rintro rfl
  rw [isDirectoryAt, get?_nil] at h
  cases h

theorem isSome_get?_put {entry : Entry} (h : (t.get? other).isSome = true) :
    ((t.put place entry).get? other).isSome = true := by
  by_cases he : other = place
  · subst he
    by_cases hne : other = []
    · simp [hne, get?_nil]
    · simp [get?_put_self t entry hne]
  · rwa [get?_put_of_ne t entry he]

/-- The file takes the place of a file or of nothing. -/
theorem isDirectoryAt_put_file (hplace : t.isDirectoryAt place = false) (other : Place) :
    (t.put place (.file bytes)).isDirectoryAt other = t.isDirectoryAt other := by
  by_cases h : other = place
  · rw [h, hplace, isDirectoryAt, get?_put_self t _ (ne_nil_of_isDirectoryAt hplace)]
  · rw [isDirectoryAt, isDirectoryAt, get?_put_of_ne t _ h]

theorem grown_put_file (hplace : t.isDirectoryAt place = false) :
    t.Grown (t.put place (.file bytes)) :=
  ⟨fun other h => by rw [isDirectoryAt_put_file hplace, h], fun _ => isSome_get?_put⟩

theorem fileAt?_put_file (hplace : place ≠ []) (other : Place) :
    (t.put place (.file bytes)).fileAt? other =
      if other = place then some bytes else t.fileAt? other := by
  by_cases h : other = place
  · rw [if_pos h, h, fileAt?, get?_put_self t _ hplace]
  · rw [if_neg h, fileAt?, fileAt?, get?_put_of_ne t _ h]

theorem writeAt?_eq_some {directory : Place} {name : String} {written : FileTree}
    (h : t.writeAt? directory name bytes = some written) :
    t.isDirectoryAt directory = true ∧ isName name = true ∧
      t.isDirectoryAt (directory ++ [name]) = false ∧
      written = t.put (directory ++ [name]) (.file bytes) := by
  unfold writeAt? at h
  split at h
  · rename_i hallowed
    simp only [Bool.and_eq_true, Bool.not_eq_true'] at hallowed
    exact ⟨hallowed.1.1, hallowed.1.2, hallowed.2, (Option.some.inj h).symm⟩
  · simp at h

/-! Directories -/

theorem grown_put_directory (h : t.get? place = none) : t.Grown (t.put place .directory) := by
  refine ⟨fun other hother => ?_, fun _ => isSome_get?_put⟩
  have hne : other ≠ place := by
    rintro rfl
    rw [isDirectoryAt, h] at hother
    cases hother
  rwa [isDirectoryAt, get?_put_of_ne t _ hne, ← isDirectoryAt]

theorem fileAt?_put_directory (h : t.get? place = none) (other : Place) :
    (t.put place .directory).fileAt? other = t.fileAt? other := by
  by_cases he : other = place
  · have hne : place ≠ [] := by
      rintro rfl
      rw [get?_nil] at h
      cases h
    rw [he, fileAt?, fileAt?, get?_put_self t _ hne, h]
  · rw [fileAt?, fileAt?, get?_put_of_ne t _ he]

/-- Only a directory that is missing is made. -/
theorem get?_eq_none_of_step {piece : String} (h : t.step place piece = none)
    (hmake : (t.isDirectoryAt place && isName piece) = true) : t.get? (place ++ [piece]) = none := by
  rw [Bool.and_eq_true] at hmake
  rw [← Option.not_isSome_iff_eq_none]
  intro hthere
  rw [step_of_isName hmake.2 hmake.1 hthere] at h
  cases h

theorem grown_makeDirectories (t : FileTree) (place : Place) (pieces : List String) :
    t.Grown (t.makeDirectories place pieces).tree ∧
      ∀ other, (t.makeDirectories place pieces).tree.fileAt? other = t.fileAt? other := by
  induction pieces generalizing t place with
  | nil => exact ⟨Grown.refl t, fun _ => rfl⟩
  | cons piece pieces ih =>
    rw [makeDirectories]
    split
    · exact ih t _
    · rename_i hstep
      split
      · rename_i hmake
        have hnone := get?_eq_none_of_step hstep hmake
        obtain ⟨hgrown, hfiles⟩ := ih (t.put (place ++ [piece]) .directory) (place ++ [piece])
        refine ⟨(grown_put_directory hnone).trans hgrown, fun other => ?_⟩
        rw [hfiles, fileAt?_put_directory hnone]
      · exact ⟨Grown.refl t, fun _ => rfl⟩

/-! Listings -/

theorem mem_fileNamesAt {name : String} :
    name ∈ t.fileNamesAt place ↔ (t.fileAt? (place ++ [name])).isSome = true := by
  have hne : place ++ [name] ≠ [] := by simp
  have hfile : (t.fileAt? (place ++ [name])).isSome = true ↔
      ∃ bytes, (place ++ [name], Entry.file bytes) ∈ t.entries.entries := by
    simp only [← SortedMap.get?_eq_some_iff, fileAt?, get?, if_neg hne]
    cases t.entries.get? (place ++ [name]) with
    | none => simp
    | some entry => cases entry <;> simp
  rw [hfile, fileNamesAt, List.mem_filterMap]
  constructor
  · rintro ⟨⟨other, entry⟩, he, hname⟩
    cases entry with
    | directory => cases hname
    | file bytes =>
      simp only at hname
      split at hname
      · rename_i hdirectory
        have hother := List.dropLast_append_getLast? name hname
        rw [hdirectory] at hother
        exact ⟨bytes, hother ▸ he⟩
      · cases hname
  · rintro ⟨bytes, he⟩
    exact ⟨_, he, by simp⟩

theorem compare_concat (place : Place) (name name' : String) :
    compare (place ++ [name]) (place ++ [name']) = compare name name' := by
  induction place with
  | nil =>
    rw [List.nil_append, List.nil_append, List.compare_cons_cons]
    cases compare name name' <;> rfl
  | cons piece place ih =>
    have hself : compare piece piece = .eq := Std.ReflCmp.compare_self
    rw [List.cons_append, List.cons_append, List.compare_cons_cons, hself]
    exact ih

theorem pairwise_fileNamesAt (t : FileTree) (place : Place) :
    (t.fileNamesAt place).Pairwise fun a b => compare a b = .lt := by
  refine t.entries.sorted.filterMap _ ?_
  rintro ⟨other, entry⟩ ⟨other', entry'⟩ hlt name hname name' hname'
  cases entry with
  | directory => cases hname
  | file bytes =>
    cases entry' with
    | directory => cases hname'
    | file bytes' =>
      simp only at hname hname'
      split at hname
      · rename_i hdirectory
        split at hname'
        · rename_i hdirectory'
          rw [← List.dropLast_append_getLast? name hname, hdirectory,
            ← List.dropLast_append_getLast? name' hname', hdirectory', compare_concat] at hlt
          exact hlt
        · cases hname'
      · cases hname

/-- The listed names that pass a test are told by where files with such names lie. -/
theorem filter_fileNamesAt_congr {p : String → Bool}
    (h : ∀ name, p name = true →
      (t.fileAt? (place ++ [name])).isSome = (t'.fileAt? (place ++ [name])).isSome) :
    (t.fileNamesAt place).filter p = (t'.fileNamesAt place).filter p := by
  have hmem : ∀ name, name ∈ (t.fileNamesAt place).filter p ↔
      name ∈ (t'.fileNamesAt place).filter p := by
    intro name
    rw [List.mem_filter, List.mem_filter, mem_fileNamesAt, mem_fileNamesAt]
    exact and_congr_left fun hp => by rw [h name hp]
  have hsorted (t : FileTree) := (t.pairwise_fileNamesAt place).filter p
  have hnodup (t : FileTree) : ((t.fileNamesAt place).filter p).Nodup := by
    refine (hsorted t).imp fun hlt heq => ?_
    simp [heq, Std.ReflCmp.compare_self] at hlt
  refine ((List.perm_ext_iff_of_nodup (hnodup t) (hnodup t')).mpr hmem).eq_of_pairwise ?_
    (hsorted t) (hsorted t')
  intro a b _ _ hab hba
  rw [Std.OrientedCmp.gt_of_lt hab] at hba
  cases hba

/-! Names -/

/-- Nothing but a name leads down, to what lies under it. -/
theorem eq_concat_of_step {start next : Place} {piece : String} (hidle : Path.isIdle piece = false)
    (hparent : piece ≠ "..") (h : t.step start piece = some next) : next = start ++ [piece] := by
  simp only [step, hidle, hparent, Bool.false_eq_true, if_false] at h
  split at h
  · split at h
    · exact (Option.some.inj h).symm
    · cases h
  · cases h

theorem eq_append_of_walk {start next : Place} {pieces : List String}
    (hpieces : ∀ piece ∈ pieces, Path.isIdle piece = false ∧ piece ≠ "..")
    (h : t.walk start pieces = some next) : next = start ++ pieces := by
  induction pieces generalizing start with
  | nil => simpa [walk] using h.symm
  | cons piece pieces ih =>
    obtain ⟨⟨hidle, hparent⟩, hrest⟩ := List.forall_mem_cons.mp hpieces
    rw [walk, List.foldlM_cons, Option.bind_eq_bind, Option.bind_eq_some_iff] at h
    obtain ⟨between, hstep, hwalk⟩ := h
    rw [ih hrest hwalk, eq_concat_of_step hidle hparent hstep, List.append_assoc,
      List.singleton_append]

theorem isPlain_of_isName {name : String} (hname : isName name = true)
    (hslash : '/' ∉ name.toList) : Path.IsPlain ⟨name⟩ where
  isRelative := by
    rw [Path.isAbsolute, beq_eq_false_iff_ne]
    exact fun hhead => hslash (List.mem_of_mem_head? hhead)
  names := by
    simp only [isName, Bool.and_eq_true, Bool.not_eq_true', decide_eq_true_eq] at hname
    simp [Path.pieces_of_not_mem hslash, hname]

/-- What has a name lies in a directory. -/
structure WellFormed (t : FileTree) : Prop where
  isDirectoryAt : ∀ place name, (t.get? (place ++ [name])).isSome = true →
    t.isDirectoryAt place = true
  isName : ∀ place name, (t.get? (place ++ [name])).isSome = true →
    isName name = true ∧ '/' ∉ name.toList

theorem wellFormed_iff : t.WellFormed ↔ ∀ e ∈ t.entries.entries, ∀ name ∈ e.1.getLast?,
    t.isDirectoryAt e.1.dropLast = true ∧ isName name = true ∧ '/' ∉ name.toList := by
  have hthere (place name) : (t.get? (place ++ [name])).isSome = true ↔
      ∃ entry, (place ++ [name], entry) ∈ t.entries.entries := by
    simp [get?, ← SortedMap.get?_eq_some_iff, Option.isSome_iff_exists]
  constructor
  · rintro ⟨hdirectory, hname⟩ ⟨place, entry⟩ he name hlast
    dsimp only at hlast ⊢
    rw [← List.dropLast_append_getLast? name hlast] at he
    have hsome := (hthere _ _).mpr ⟨entry, he⟩
    exact ⟨hdirectory _ _ hsome, hname _ _ hsome⟩
  · intro h
    have hentry (place name) (hsome : (t.get? (place ++ [name])).isSome = true) :
        t.isDirectoryAt place = true ∧ isName name = true ∧ '/' ∉ name.toList := by
      obtain ⟨entry, he⟩ := (hthere place name).mp hsome
      have := h _ he name (by simp)
      rwa [List.dropLast_concat] at this
    exact ⟨fun place name hsome => (hentry place name hsome).1,
      fun place name hsome => (hentry place name hsome).2⟩

instance : Decidable t.WellFormed := decidable_of_iff _ wellFormed_iff.symm

/-- What is put into a directory under a name keeps the tree well formed. -/
theorem WellFormed.put (h : t.WellFormed) {name : String} {entry : Entry}
    (hgrown : t.Grown (t.put (place ++ [name]) entry)) (hplace : t.isDirectoryAt place = true)
    (hname : FileTree.isName name = true) (hslash : '/' ∉ name.toList) :
    (t.put (place ++ [name]) entry).WellFormed := by
  have hthere (other name') (hsome : ((t.put (place ++ [name]) entry).get?
      (other ++ [name'])).isSome = true) :
      t.isDirectoryAt other = true ∧ FileTree.isName name' = true ∧ '/' ∉ name'.toList := by
    by_cases he : other ++ [name'] = place ++ [name]
    · obtain ⟨rfl, hlast⟩ := List.append_inj' he rfl
      obtain rfl := List.singleton_inj.mp hlast
      exact ⟨hplace, hname, hslash⟩
    · rw [get?_put_of_ne t entry he] at hsome
      exact ⟨h.isDirectoryAt _ _ hsome, h.isName _ _ hsome⟩
  exact ⟨fun other name' hsome => hgrown.isDirectoryAt other (hthere other name' hsome).1,
    fun other name' hsome => (hthere other name' hsome).2⟩

theorem WellFormed.makeDirectories (h : t.WellFormed) {pieces : List String}
    (hpieces : ∀ piece ∈ pieces, '/' ∉ piece.toList) :
    (t.makeDirectories place pieces).tree.WellFormed := by
  induction pieces generalizing t place with
  | nil => exact h
  | cons piece pieces ih =>
    obtain ⟨hpiece, hrest⟩ := List.forall_mem_cons.mp hpieces
    rw [FileTree.makeDirectories]
    split
    · exact ih h hrest
    · rename_i hstep
      split
      · rename_i hmake
        have hgrown := grown_put_directory (get?_eq_none_of_step hstep hmake)
        rw [Bool.and_eq_true] at hmake
        exact ih (h.put hgrown hmake.1 hmake.2 hpiece) hrest
      · exact h

/-- In a tree that is well formed, everything is reached by the names on the way to it. -/
theorem WellFormed.walk_eq_some (h : t.WellFormed) {start : Place} {pieces : List String}
    (hthere : (t.get? (start ++ pieces)).isSome = true) :
    t.walk start pieces = some (start ++ pieces) := by
  induction pieces using List.reverseRecOn with
  | nil => simp [walk]
  | append_singleton pieces piece ih =>
    rw [← List.append_assoc] at hthere ⊢
    have hdirectory := h.isDirectoryAt _ _ hthere
    rw [walk_concat, ih (isSome_get?_of_isDirectoryAt hdirectory), Option.bind_some,
      step_of_isName (h.isName _ _ hthere).1 hdirectory hthere]

/-- Only directories hold files. -/
theorem WellFormed.fileNamesAt_eq_nil (h : t.WellFormed) (hplace : t.isDirectoryAt place = false) :
    t.fileNamesAt place = [] := by
  rw [List.eq_nil_iff_forall_not_mem]
  intro name hname
  rw [h.isDirectoryAt _ _ (isSome_get?_of_fileAt? (mem_fileNamesAt.mp hname))] at hplace
  cases hplace

end DecompTracker.FileTree
