import DecompTracker.Proofs.Project.Reading

/-! The input files of a project. A snapshot is made from the bytes of the class table, the function
table and the override tables, and from nothing else on the machine; the digests of the inputs are
those of the same files. -/
namespace DecompTracker

open Project

/-- The override tables in a directory, in the order in which they are read. -/
def Machine.tables (machine : Machine) (directory : Path) : List Path :=
  (((machine.fileNames? directory).getD []).filter isTableName).map fun name =>
    directory.join ⟨name⟩

namespace Project

/-- The bytes of all inputs, with the paths of the override tables. -/
structure InputFiles where
  classes : ByteArray
  functions : ByteArray
  overrides : List (Path × ByteArray)

def InputFiles.hashes (files : InputFiles) : InputHashes where
  classes := Sha256.hexDigest files.classes
  functions := Sha256.hexDigest files.functions
  overrides := files.overrides.map fun e => (e.1.fileName?.getD "", Sha256.hexDigest e.2)

variable {machine machine' : Machine} {project : Project} {files files' : InputFiles}

/-- The files that a machine holds as the inputs of a project. -/
structure InputFiles.HeldOn (files : InputFiles) (machine : Machine) (project : Project) : Prop where
  classes : machine.read? project.classesFile = some files.classes
  functions : machine.read? project.functionsFile = some files.functions
  tables : files.overrides.map Prod.fst = machine.tables project.overridesDirectory
  overrides : ∀ e ∈ files.overrides, machine.read? e.1 = some e.2

theorem eq_of_map_fst_eq {read? : Path → Option ByteArray} {held held' : List (Path × ByteArray)}
    (h : ∀ e ∈ held, read? e.1 = some e.2) (h' : ∀ e ∈ held', read? e.1 = some e.2)
    (hpaths : held.map Prod.fst = held'.map Prod.fst) : held = held' := by
  induction held generalizing held' with
  | nil => exact (List.map_eq_nil_iff.mp hpaths.symm).symm
  | cons e held ih =>
    obtain ⟨e', rest, rfl, hfst, hrest⟩ := List.map_eq_cons_iff.mp hpaths.symm
    obtain ⟨he, hheld⟩ := List.forall_mem_cons.mp h
    obtain ⟨he', hheld'⟩ := List.forall_mem_cons.mp h'
    have hsnd : e.2 = e'.2 := by
      rw [hfst, he] at he'
      exact Option.some.inj he'
    rw [Prod.ext hfst.symm hsnd, ih hheld hheld' hrest.symm]

/-- A machine holds one set of inputs. -/
theorem InputFiles.HeldOn.eq (h : files.HeldOn machine project)
    (h' : files'.HeldOn machine project) : files = files' := by
  have hclasses := Option.some.inj (h.classes.symm.trans h'.classes)
  have hfunctions := Option.some.inj (h.functions.symm.trans h'.functions)
  have hoverrides :=
    eq_of_map_fst_eq h.overrides h'.overrides (h.tables.trans h'.tables.symm)
  cases files
  cases files'
  simp_all

/-! Reading -/

/-- The classes in the bytes of a class table. -/
def classesOf? (bytes : ByteArray) : Option Hierarchy.DependencyMap := do
  let text ← String.fromUTF8? bytes
  let table ← (Json.parse? text).bind ClassTable.ofJson?
  return table.dependencies

/-- The functions in the bytes of a function table. -/
def functionsOf? (path : Path) (bytes : ByteArray) : Option (List FunctionEntry) := do
  let text ← String.fromUTF8? bytes
  if path.extension? = some "json" then (entriesOfRows path text).toOption
  else (functionsOfCsv text).toOption

/-- The overrides read so far and those in the bytes of the next table. -/
def overridesAfter? (table : OverrideTable) (file : Path × ByteArray) : Option OverrideTable := do
  let text ← String.fromUTF8? file.2
  let entries ← overrideFile? text (overrideFormat file.1)
  return entries.addTo table

/-- The snapshot that the input files hold. -/
def InputFiles.snapshot? (files : InputFiles) (project : Project) : Option Snapshot := do
  return {
    classes := ← classesOf? files.classes
    functions := ← functionsOf? project.functionsFile files.functions
    overrides := ← files.overrides.foldlM overridesAfter? .empty }

theorem runOn_loadClasses_eq_ok {path : Path} {classes : Hierarchy.DependencyMap} :
    runOn machine (loadClasses path) = (.ok classes, machine') ↔
      machine' = machine ∧ ∃ bytes, machine.read? path = some bytes ∧
        classesOf? bytes = some classes := by
  simp only [loadClasses, runOn_bind_eq_ok, runOn_readText_eq_ok, runOn_orFail_eq_ok, runOn_pure,
    classesOf?, Option.bind_eq_bind, Option.bind_eq_some_iff, Option.pure_def, Option.some.injEq,
    Prod.mk.injEq, Except.ok.injEq]
  grind

theorem runOn_loadFunctions_eq_ok {path : Path} {functions : List FunctionEntry} :
    runOn machine (loadFunctions path) = (.ok functions, machine') ↔
      machine' = machine ∧ ∃ bytes, machine.read? path = some bytes ∧
        functionsOf? path bytes = some functions := by
  have hread (text : String) : runOn machine
      (if path.extension? = some "json" then monadLift (entriesOfRows path text)
        else monadLift ((functionsOfCsv text).mapError (Failure.badFunctionLines path))) =
        (.ok functions, machine') ↔ machine' = machine ∧
      (if path.extension? = some "json" then (entriesOfRows path text).toOption
        else (functionsOfCsv text).toOption) = some functions := by
    split
    · exact runOn_except_eq_ok
    · rw [runOn_except_eq_ok, toOption_mapError]
  simp only [loadFunctions, runOn_bind_eq_ok, runOn_readText_eq_ok, functionsOf?,
    Option.bind_eq_bind, Option.bind_eq_some_iff]
  constructor
  · rintro ⟨text, _, ⟨rfl, bytes, hbytes, htext⟩, h⟩
    obtain ⟨hmachine, hfunctions⟩ := (hread text).mp h
    exact ⟨hmachine, bytes, hbytes, text, htext, hfunctions⟩
  · rintro ⟨hmachine, bytes, hbytes, text, htext, hfunctions⟩
    exact ⟨text, machine, ⟨rfl, bytes, hbytes, htext⟩, (hread text).mpr ⟨hmachine, hfunctions⟩⟩

theorem tables_of_isDirectory_eq_false {directory : Path}
    (h : machine.isDirectory directory = false) : machine.tables directory = [] := by
  have hnames : machine.fileNames? directory = none := by
    unfold Machine.isDirectory at h
    unfold Machine.fileNames?
    cases hfind : machine.find? directory with
    | none => rfl
    | some place =>
      rw [hfind, Option.any_some] at h
      simp [h]
  rw [Machine.tables, hnames]
  rfl

theorem tables_of_find? {directory : Path} {place : FileTree.Place}
    (hfind : machine.find? directory = some place)
    (hplace : machine.files.isDirectoryAt place = true) :
    machine.tables directory = ((machine.files.fileNamesAt place).filter isTableName).map
      fun name => directory.join ⟨name⟩ := by
  simp [Machine.tables, Machine.fileNames?, hfind, hplace]

/-- The names of the tables are asked for only where there is a directory, and are told there. -/
theorem runOn_overrideFiles (machine : Machine) (directory : Path) :
    runOn machine (overrideFiles directory) = (.ok (machine.tables directory), machine) := by
  have hdirectory : (FileStore.isDirectory directory : StateM Machine Bool) machine =
      (machine.isDirectory directory, machine) := rfl
  have hnames : (FileStore.fileNames? directory : StateM Machine (Option (List String))) machine =
      (machine.fileNames? directory, machine) := rfl
  rw [overrideFiles, runOn_bind, runOn_lift, hdirectory]
  dsimp only
  cases h : machine.isDirectory directory with
  | false =>
    rw [tables_of_isDirectory_eq_false h]
    rfl
  | true =>
    obtain ⟨place, hfind, hplace⟩ := (Option.any_eq_true _ _).mp h
    have hlisted : machine.fileNames? directory = some (machine.files.fileNamesAt place) := by
      simp [Machine.fileNames?, hfind, hplace]
    rw [if_pos rfl, runOn_bind, runOn_lift, hnames, hlisted, Machine.tables, hlisted]
    rfl

theorem runOn_loadOverrideFile_eq_ok {table table' : OverrideTable} {path : Path} :
    runOn machine (loadOverrideFile table path) = (.ok table', machine') ↔
      machine' = machine ∧ ∃ bytes, machine.read? path = some bytes ∧
        overridesAfter? table (path, bytes) = some table' := by
  simp only [loadOverrideFile, runOn_bind_eq_ok, runOn_readText_eq_ok, runOn_orFail_eq_ok,
    runOn_pure, overridesAfter?, Option.bind_eq_bind, Option.bind_eq_some_iff, Option.pure_def,
    Option.some.injEq, Prod.mk.injEq, Except.ok.injEq]
  grind

theorem runOn_foldlM_loadOverrideFile_eq_ok {paths : List Path} {table table' : OverrideTable} :
    runOn machine (paths.foldlM loadOverrideFile table) = (.ok table', machine') ↔
      machine' = machine ∧ ∃ held : List (Path × ByteArray), held.map Prod.fst = paths ∧
        (∀ e ∈ held, machine.read? e.1 = some e.2) ∧
        held.foldlM overridesAfter? table = some table' := by
  induction paths generalizing table with
  | nil =>
    rw [List.foldlM_nil, runOn_pure, Prod.mk.injEq, Except.ok.injEq]
    constructor
    · rintro ⟨rfl, rfl⟩
      exact ⟨rfl, [], rfl, by simp, rfl⟩
    · rintro ⟨rfl, held, hpaths, -, hfold⟩
      rw [List.map_eq_nil_iff] at hpaths
      subst hpaths
      exact ⟨Option.some.inj hfold, rfl⟩
  | cons path paths ih =>
    rw [List.foldlM_cons, runOn_bind_eq_ok]
    constructor
    · rintro ⟨next, _, hfile, hrest⟩
      obtain ⟨rfl, bytes, hbytes, hnext⟩ := runOn_loadOverrideFile_eq_ok.mp hfile
      obtain ⟨hmachine, held, rfl, hheld, hfold⟩ := ih.mp hrest
      refine ⟨hmachine, (path, bytes) :: held, rfl, List.forall_mem_cons.mpr ⟨hbytes, hheld⟩, ?_⟩
      rw [List.foldlM_cons, hnext]
      exact hfold
    · rintro ⟨hmachine, held, hpaths, hheld, hfold⟩
      obtain ⟨e, rest, rfl, rfl, rfl⟩ := List.map_eq_cons_iff.mp hpaths
      obtain ⟨he, hrest⟩ := List.forall_mem_cons.mp hheld
      rw [List.foldlM_cons, Option.bind_eq_bind, Option.bind_eq_some_iff] at hfold
      obtain ⟨next, hnext, hfold⟩ := hfold
      exact ⟨next, machine, runOn_loadOverrideFile_eq_ok.mpr ⟨rfl, e.2, he, hnext⟩,
        ih.mpr ⟨hmachine, rest, rfl, hrest, hfold⟩⟩

theorem runOn_loadOverrides_eq_ok {directory : Path} {table : OverrideTable} :
    runOn machine (loadOverrides directory) = (.ok table, machine') ↔
      machine' = machine ∧ ∃ held : List (Path × ByteArray),
        held.map Prod.fst = machine.tables directory ∧
        (∀ e ∈ held, machine.read? e.1 = some e.2) ∧
        held.foldlM overridesAfter? .empty = some table := by
  rw [loadOverrides, runOn_bind, runOn_overrideFiles]
  exact runOn_foldlM_loadOverrideFile_eq_ok

/-- A snapshot is loaded from the input files that the machine holds. -/
theorem runOn_loadSnapshot_eq_ok_iff_heldOn {s : Snapshot} :
    runOn machine project.loadSnapshot = (.ok s, machine') ↔
      machine' = machine ∧
        ∃ files : InputFiles, files.HeldOn machine project ∧ files.snapshot? project = some s := by
  simp only [runOn_loadSnapshot_eq_ok, runOn_loadClasses_eq_ok, runOn_loadFunctions_eq_ok,
    runOn_loadOverrides_eq_ok, true_and, InputFiles.snapshot?, Option.bind_eq_bind,
    Option.bind_eq_some_iff, Option.pure_def, Option.some.injEq]
  refine and_congr_right fun _ => ?_
  constructor
  · rintro ⟨⟨classes, hclasses, hclassesOf⟩, ⟨functions, hfunctions, hfunctionsOf⟩,
      overrides, htables, hoverrides, hoverridesOf⟩
    exact ⟨⟨classes, functions, overrides⟩, ⟨hclasses, hfunctions, htables, hoverrides⟩,
      _, hclassesOf, _, hfunctionsOf, _, hoverridesOf, rfl⟩
  · rintro ⟨files, hheld, classes, hclasses, functions, hfunctions, overrides, hoverrides, rfl⟩
    exact ⟨⟨_, hheld.classes, hclasses⟩, ⟨_, hheld.functions, hfunctions⟩,
      _, hheld.tables, hheld.overrides, hoverrides⟩

/-! Hashing -/

theorem runOn_hashFile_eq_ok {path : Path} {digest : String} :
    runOn machine (hashFile path) = (.ok digest, machine') ↔
      machine' = machine ∧ ∃ bytes, machine.read? path = some bytes ∧
        Sha256.hexDigest bytes = digest := by
  have hread : (FileStore.read? path : StateM Machine (Option ByteArray)) machine =
      (machine.read? path, machine) := rfl
  rw [hashFile, runOn_bind, runOn_lift, hread]
  dsimp only
  cases machine.read? path with
  | some bytes => simp [and_comm, eq_comm]
  | none =>
    have hdirectory : (FileStore.isDirectory path : StateM Machine Bool) machine =
        (machine.isDirectory path, machine) := rfl
    dsimp only
    rw [runOn_bind, runOn_lift, hdirectory]
    cases machine.isDirectory path with
    | false =>
      have hthrow : runOn machine (throw (.cannotOpen path) : ExceptT _ _ String) =
          (.error (.cannotOpen path), machine) := rfl
      simp [hthrow]
    | true =>
      have hthrow : runOn machine (throw (.cannotHash path) : ExceptT _ _ String) =
          (.error (.cannotHash path), machine) := rfl
      simp [hthrow]

theorem hashes_of_mapM {paths : List Path} {digests : List (String × String)}
    (h : runOn machine (paths.mapM fun path => do
      return (path.fileName?.getD "", ← hashFile path)) = (.ok digests, machine')) :
    machine' = machine ∧ ∃ held : List (Path × ByteArray), held.map Prod.fst = paths ∧
      (∀ e ∈ held, machine.read? e.1 = some e.2) ∧
      digests = held.map fun e => (e.1.fileName?.getD "", Sha256.hexDigest e.2) := by
  induction paths generalizing digests with
  | nil =>
    rw [List.mapM_nil, runOn_pure, Prod.mk.injEq, Except.ok.injEq] at h
    exact ⟨h.2.symm, [], rfl, by simp, h.1.symm⟩
  | cons path paths ih =>
    simp only [List.mapM_cons, runOn_bind_eq_ok, runOn_hashFile_eq_ok, runOn_pure, Prod.mk.injEq,
      Except.ok.injEq] at h
    obtain ⟨_, _, ⟨_, _, ⟨rfl, bytes, hbytes, rfl⟩, rfl, rfl⟩, rest, _, hrest, rfl, rfl⟩ := h
    obtain ⟨hmachine, held, rfl, hheld, rfl⟩ := ih hrest
    exact ⟨hmachine, (path, bytes) :: held, rfl, List.forall_mem_cons.mpr ⟨hbytes, hheld⟩, rfl⟩

/-- The digests are those of the input files that the machine holds by then. -/
theorem heldOn_of_runOn_hashInputs {hashes : InputHashes}
    (h : runOn machine (hashInputs project) = (.ok hashes, machine')) :
    machine' = machine ∧
      ∃ files : InputFiles, files.HeldOn machine project ∧ hashes = files.hashes := by
  simp only [hashInputs, hashOverrides, runOn_bind_eq_ok, runOn_overrideFiles,
    runOn_hashFile_eq_ok, runOn_pure, Prod.mk.injEq, Except.ok.injEq] at h
  obtain ⟨overrides, _, ⟨_, _, ⟨rfl, rfl⟩, hoverrides⟩, _, _, ⟨rfl, classes, hclasses, rfl⟩,
    _, _, ⟨rfl, functions, hfunctions, rfl⟩, rfl, rfl⟩ := h
  obtain ⟨rfl, held, htables, hheld, rfl⟩ := hashes_of_mapM hoverrides
  exact ⟨rfl, ⟨classes, functions, held⟩, ⟨hclasses, hfunctions, htables, hheld⟩, rfl⟩

end Project

end DecompTracker
