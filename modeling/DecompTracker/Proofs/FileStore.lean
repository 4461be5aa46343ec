import DecompTracker.FileStore
import DecompTracker.Proofs.FileTree

/-! Machines on which files are written. Whatever path led somewhere leads there still, the path of a
file that was written leads to that file, and all other files hold what they held before. Where several
files were written to one place the last one counts. A plain path that is joined to another leads down
from there by its own pieces, before the writing and after it. -/
namespace DecompTracker.Machine

variable {machine next last : Machine} {p : Path} {bytes : ByteArray} {place : FileTree.Place}
  {written written' : List (Path × ByteArray)}

/-- The last of the written files whose path leads to a place, or what was held there before. -/
def lastWritten (machine : Machine) (written : List (Path × ByteArray)) (place : FileTree.Place)
    (held? : Option ByteArray) : Option ByteArray :=
  written.foldl (fun held? e => if machine.find? e.1 = some place then some e.2 else held?) held?

theorem lastWritten_of_forall_ne {held? : Option ByteArray}
    (h : ∀ e ∈ written, machine.find? e.1 ≠ some place) :
    machine.lastWritten written place held? = held? := by
  induction written with
  | nil => rfl
  | cons e written ih =>
    obtain ⟨he, hwritten⟩ := List.forall_mem_cons.mp h
    rw [lastWritten, List.foldl_cons, if_neg he]
    exact ih hwritten

theorem lastWritten_append {held? : Option ByteArray} :
    machine.lastWritten (written ++ written') place held? =
      machine.lastWritten written' place (machine.lastWritten written place held?) :=
  List.foldl_append

/-- Files are written one after the other, and directories made for them; nothing else happens. -/
structure Received (machine next : Machine) (written : List (Path × ByteArray)) : Prop where
  workingDirectory : next.workingDirectory = machine.workingDirectory
  grown : machine.files.Grown next.files
  found : ∀ e ∈ written, (next.find? e.1).isSome = true
  fileAt? : ∀ place, next.files.fileAt? place =
    next.lastWritten written place (machine.files.fileAt? place)
  wellFormed : machine.files.WellFormed → next.files.WellFormed

theorem Received.refl (machine : Machine) : machine.Received machine [] :=
  ⟨rfl, FileTree.Grown.refl _, by simp, fun _ => rfl, id⟩

theorem Received.begin?_eq (h : machine.Received next written) (p : Path) :
    next.begin? p = machine.begin? p := by
  rw [begin?, begin?, start?, start?, h.workingDirectory]

/-- Paths lead where they led before. -/
theorem Received.find?_eq (h : machine.Received next written)
    (hp : machine.find? p = some place) : next.find? p = some place := by
  simp only [find?, Option.bind_eq_bind, Option.bind_eq_some_iff] at hp ⊢
  obtain ⟨start, hstart, hwalk⟩ := hp
  exact ⟨start, (h.begin?_eq p).trans hstart, h.grown.walk hwalk⟩

theorem Received.lastWritten_eq (h : machine.Received next written)
    (hfound : ∀ e ∈ written', (machine.find? e.1).isSome = true) (held? : Option ByteArray) :
    next.lastWritten written' place held? = machine.lastWritten written' place held? := by
  induction written' generalizing held? with
  | nil => rfl
  | cons e written' ih =>
    obtain ⟨he, hwritten⟩ := List.forall_mem_cons.mp hfound
    obtain ⟨other, hother⟩ := Option.isSome_iff_exists.mp he
    rw [lastWritten, lastWritten, List.foldl_cons, List.foldl_cons, h.find?_eq hother, hother]
    exact ih hwritten _

theorem Received.append (h : machine.Received next written) (h' : next.Received last written') :
    machine.Received last (written ++ written') where
  workingDirectory := h'.workingDirectory.trans h.workingDirectory
  grown := h.grown.trans h'.grown
  found := by
    rw [List.forall_mem_append]
    refine ⟨fun e he => ?_, h'.found⟩
    obtain ⟨place, hplace⟩ := Option.isSome_iff_exists.mp (h.found e he)
    rw [h'.find?_eq hplace, Option.isSome_some]
  fileAt? place := by
    rw [lastWritten_append, h'.lastWritten_eq h.found, ← h.fileAt? place, h'.fileAt? place]
  wellFormed hformed := h'.wellFormed (h.wellFormed hformed)

theorem received_makeDirectories (machine : Machine) (p : Path) :
    machine.Received (machine.makeDirectories p).2 [] := by
  unfold makeDirectories
  split
  · exact Received.refl machine
  · rename_i place _
    obtain ⟨hgrown, hfiles⟩ := machine.files.grown_makeDirectories place p.pieces
    exact ⟨rfl, hgrown, by simp, hfiles, fun hformed =>
      hformed.makeDirectories fun _ hpiece => Path.not_mem_of_mem_pieces hpiece⟩

theorem write?_eq_some (h : machine.write? p bytes = some next) :
    ∃ directory name, machine.files.isDirectoryAt directory = true ∧
      FileTree.isName name = true ∧ '/' ∉ name.toList ∧
      machine.files.isDirectoryAt (directory ++ [name]) = false ∧
      next.find? p = some (directory ++ [name]) ∧
      next = { machine with files := machine.files.put (directory ++ [name]) (.file bytes) } := by
  simp only [write?, Option.bind_eq_bind, Option.bind_eq_some_iff, Option.pure_def,
    Option.some.injEq] at h
  obtain ⟨start, hstart, directory, hwalk, name, hname, files, hwrite, rfl⟩ := h
  obtain ⟨hdirectory, hisName, hfree, rfl⟩ := FileTree.writeAt?_eq_some hwrite
  have hslash := Path.not_mem_of_mem_pieces (List.mem_of_getLast? hname)
  obtain ⟨front, hpieces⟩ := List.getLast?_eq_some_iff.mp hname
  rw [hpieces, List.dropLast_concat] at hwalk
  have hgrown : machine.files.Grown (machine.files.put (directory ++ [name]) (.file bytes)) :=
    FileTree.grown_put_file hfree
  have hput := FileTree.get?_put_self machine.files (.file bytes)
    (FileTree.ne_nil_of_isDirectoryAt hfree)
  have hstep := FileTree.step_of_isName hisName (hgrown.isDirectoryAt _ hdirectory)
    (by rw [hput]; rfl)
  have hbegin : (Machine.mk (machine.files.put (directory ++ [name]) (.file bytes))
      machine.workingDirectory).begin? p = some start := hstart
  refine ⟨directory, name, hdirectory, hisName, hslash, hfree, ?_, rfl⟩
  rw [find?, hbegin, Option.bind_eq_bind, Option.bind_some, hpieces, FileTree.walk_concat,
    hgrown.walk hwalk, Option.bind_some, hstep]

theorem received_write (h : machine.write? p bytes = some next) :
    machine.Received next [(p, bytes)] := by
  obtain ⟨directory, name, hdirectory, hisName, hslash, hfree, hfind, rfl⟩ := write?_eq_some h
  have hgrown : machine.files.Grown (machine.files.put (directory ++ [name]) (.file bytes)) :=
    FileTree.grown_put_file hfree
  refine ⟨rfl, hgrown, by simp [hfind], fun other => ?_,
    fun hformed => hformed.put hgrown hdirectory hisName hslash⟩
  rw [FileTree.fileAt?_put_file (FileTree.ne_nil_of_isDirectoryAt hfree)]
  simp only [lastWritten, List.foldl_cons, List.foldl_nil, hfind, Option.some.injEq, eq_comm]

/-- A file that was read holds the last file written to its place, or else the same bytes. -/
theorem Received.read?_eq (h : machine.Received next written) (hread : machine.read? p = some bytes) :
    ∃ place, next.find? p = some place ∧
      next.read? p = next.lastWritten written place (some bytes) := by
  simp only [read?, Option.bind_eq_bind, Option.bind_eq_some_iff] at hread
  obtain ⟨place, hplace, hbytes⟩ := hread
  have hfind := h.find?_eq hplace
  refine ⟨place, hfind, ?_⟩
  rw [read?, hfind, Option.bind_eq_bind, Option.bind_some, h.fileAt? place, hbytes]

theorem Received.read?_of_ne (h : machine.Received next written)
    (hread : machine.read? p = some bytes) (hne : ∀ e ∈ written, next.find? e.1 ≠ next.find? p) :
    next.read? p = some bytes := by
  obtain ⟨place, hfind, heq⟩ := h.read?_eq hread
  rw [hfind] at hne
  rw [heq, lastWritten_of_forall_ne hne]

/-- The file written last is read. -/
theorem Received.read?_concat (h : machine.Received next (written ++ [(p, bytes)])) :
    next.read? p = some bytes := by
  obtain ⟨place, hplace⟩ := Option.isSome_iff_exists.mp (h.found (p, bytes) (by simp))
  rw [read?, hplace, Option.bind_eq_bind, Option.bind_some, h.fileAt?, lastWritten_append]
  exact if_pos hplace

/-- What is written to a path is read from it. -/
theorem read?_of_write? (h : machine.write? p bytes = some next) : next.read? p = some bytes := by
  have hreceived : machine.Received next ([] ++ [(p, bytes)]) := received_write h
  exact hreceived.read?_concat

/-- Files with names that nothing was written to are listed as before. -/
theorem Received.filter_fileNamesAt (h : machine.Received next written) {test : String → Bool}
    (hne : ∀ e ∈ written, ∀ name, test name = true → next.find? e.1 ≠ some (place ++ [name])) :
    (next.files.fileNamesAt place).filter test =
      (machine.files.fileNamesAt place).filter test := by
  refine FileTree.filter_fileNamesAt_congr fun name hname => ?_
  rw [h.fileAt?, lastWritten_of_forall_ne fun e he => hne e he name hname]

/-! Joined paths -/

theorem begin?_eq_some {start : FileTree.Place} (h : machine.begin? p = some start) :
    p.text ≠ "" ∧ start = if p.isAbsolute then [] else machine.workingDirectory := by
  unfold begin? start? at h
  grind

/-- Where the paths that are joined to a path start from. -/
def origin? (machine : Machine) (base : Path) : Option FileTree.Place :=
  machine.files.walk (if base.isAbsolute then [] else machine.workingDirectory) base.leading

variable {base : Path}

theorem find?_join (h : p.isAbsolute = false) :
    machine.find? (base.join p) = (machine.begin? (base.join p)).bind fun _ =>
      (machine.origin? base).bind fun origin => machine.files.walk origin p.pieces := by
  rw [find?, Option.bind_eq_bind]
  refine Option.bind_congr fun start hstart => ?_
  rw [(begin?_eq_some hstart).2, Path.isAbsolute_join h, Path.pieces_join h, origin?,
    FileTree.walk, List.foldlM_append]
  rfl

/-- A plain path leads down from there by its own pieces. -/
theorem find?_join_of_isPlain (hp : p.IsPlain) (h : machine.find? (base.join p) = some place) :
    ∃ origin, machine.origin? base = some origin ∧ place = origin ++ p.pieces := by
  rw [find?_join hp.isRelative] at h
  simp only [Option.bind_eq_some_iff] at h
  obtain ⟨_, -, origin, horigin, hwalk⟩ := h
  exact ⟨origin, horigin, FileTree.eq_append_of_walk hp.names hwalk⟩

/-- Paths that are joined to the path of a directory start from that directory. -/
theorem origin?_of_find? (h : machine.find? base = some place) :
    machine.origin? base = some place := by
  simp only [find?, Option.bind_eq_bind, Option.bind_eq_some_iff] at h
  obtain ⟨start, hstart, hwalk⟩ := h
  obtain ⟨htext, rfl⟩ := begin?_eq_some hstart
  rw [origin?, Path.leading, if_neg htext]
  by_cases hslash : base.text.toList.getLast? = some '/'
  · obtain ⟨front, -, hpieces⟩ := Path.exists_eq_append_slash hslash
    rw [hpieces, FileTree.walk_concat, Option.bind_eq_some_iff] at hwalk
    obtain ⟨between, hbetween, hstep⟩ := hwalk
    rw [if_pos hslash, hpieces, List.dropLast_concat, hbetween]
    -- The piece after the slash is empty, so it leads nowhere else.
    unfold FileTree.step at hstep
    split at hstep
    · exact hstep
    · cases hstep
  · rwa [if_neg hslash]

theorem Received.origin?_eq (h : machine.Received next written)
    (hbase : machine.origin? base = some place) : next.origin? base = some place := by
  rw [origin?, h.workingDirectory]
  exact h.grown.walk hbase

/-- The writing does not change where a plain path leads. -/
theorem Received.eq_append_of_find?_join (h : machine.Received next written) (hp : p.IsPlain)
    {origin : FileTree.Place} (horigin : machine.origin? base = some origin)
    (hfind : next.find? (base.join p) = some place) : place = origin ++ p.pieces := by
  obtain ⟨origin', horigin', rfl⟩ := find?_join_of_isPlain hp hfind
  rw [Option.some.inj ((h.origin?_eq horigin).symm.trans horigin')]

/-- In a tree that is well formed, what is found after the writing was found before if it was
there. -/
theorem Received.find?_join_eq (h : machine.Received next written)
    (hformed : machine.files.WellFormed) (hp : p.IsPlain) {origin : FileTree.Place}
    (horigin : machine.origin? base = some origin)
    (hthere : (machine.files.get? (origin ++ p.pieces)).isSome = true)
    (hfind : next.find? (base.join p) = some place) :
    machine.find? (base.join p) = some (origin ++ p.pieces) := by
  have hbegin := h.begin?_eq (base.join p)
  rw [find?_join hp.isRelative] at hfind ⊢
  simp only [Option.bind_eq_some_iff] at hfind
  obtain ⟨start, hstart, -⟩ := hfind
  rw [← hbegin, hstart, Option.bind_some, horigin, Option.bind_some, hformed.walk_eq_some hthere]

end DecompTracker.Machine
