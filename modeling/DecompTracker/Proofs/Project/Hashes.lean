import DecompTracker.Proofs.Project.Inputs
import DecompTracker.Proofs.Project.Written

/-! The digests in a summary. They are taken when the tree and the graph have been written. If no part
was written over an input, or as a table among the overrides, they are those of the files that the
report was built from; otherwise they may be those of other files. -/
namespace DecompTracker

namespace Project

section Actions

variable {m : Type → Type} [Monad m] [FileStore m]

/-- What is written before the inputs are hashed. -/
def writeParts (project : Project) (r : Report) :
    ExceptT Failure m (Option Path × Option Path) := do
  let outputs := project.config.outputs
  let resolve := project.layout.resolve
  let tree? ← writePart (resolve outputs.tree) (r.tree?.map Hierarchy.Tree.toJson)
  let graph? ← writePart (resolve outputs.graph) (r.graph?.map Hierarchy.Graph.toJson)
  return (tree?, graph?)

end Actions

/-- The file of a part, if there is one. -/
def partFile (path : Path) (part? : Option Json) : List (Path × ByteArray) :=
  part?.toList.map fun part => (path, part.pretty.toUTF8)

/-- The files in which the tree and the graph of a report are written. -/
def partFiles (project : Project) (r : Report) : List (Path × ByteArray) :=
  partFile (project.layout.resolve project.config.outputs.tree)
      (r.tree?.map Hierarchy.Tree.toJson) ++
    partFile (project.layout.resolve project.config.outputs.graph)
      (r.graph?.map Hierarchy.Graph.toJson)

def summaryFile (project : Project) (r : Report) (hashes : InputHashes) : SummaryFile where
  project := project.config.name
  toolVersion
  inputs := hashes
  summary := r.summary

variable {machine middle machine' : Machine} {project : Project} {r : Report}
  {written : WrittenReport} {files : InputFiles}

/-! Writing -/

theorem received_of_makeDirectories {kind : DirectoryKind} {path : Path}
    (h : runOn machine (makeDirectories kind path) = (.ok (), machine')) :
    machine.Received machine' [] := by
  have hmake : (FileStore.makeDirectories path : StateM Machine Bool) machine =
      machine.makeDirectories path := rfl
  rw [makeDirectories, runOn_bind, runOn_lift, hmake] at h
  have hmachine : (machine.makeDirectories path).2 = machine' := by
    cases hmade : (machine.makeDirectories path).1 with
    | false =>
      simp only [hmade] at h
      cases h
    | true =>
      simp only [hmade] at h
      exact congrArg Prod.snd h
  rw [← hmachine]
  exact Machine.received_makeDirectories machine path

/-- The file is written when its directories have been made. -/
theorem received_of_writeJson {path : Path} {value : Json}
    (h : runOn machine (writeJson path value) = (.ok (), machine')) :
    machine.Received machine' [(path, value.pretty.toUTF8)] := by
  unfold writeJson at h
  split at h
  · rw [runOn_bind_eq_ok] at h
    obtain ⟨_, next, hmake, hwrite⟩ := h
    exact (received_of_makeDirectories hmake).append
      (Machine.received_write (write?_of_writeText hwrite))
  · exact Machine.received_write (write?_of_writeText h)

theorem read?_of_writeJson {path : Path} {value : Json}
    (h : runOn machine (writeJson path value) = (.ok (), machine')) :
    machine'.read? path = some value.pretty.toUTF8 := by
  have hreceived : machine.Received machine' ([] ++ [(path, value.pretty.toUTF8)]) :=
    received_of_writeJson h
  exact hreceived.read?_concat

theorem received_of_writePart {path : Path} {part? : Option Json} {path? : Option Path}
    (h : runOn machine (writePart path part?) = (.ok path?, machine')) :
    machine.Received machine' (partFile path part?) := by
  cases part? with
  | none =>
    obtain rfl : machine = machine' := congrArg Prod.snd h
    exact Machine.Received.refl machine
  | some value =>
    rw [writePart, runOn_bind_eq_ok] at h
    obtain ⟨_, next, hwrite, hpure⟩ := h
    obtain rfl : next = machine' := congrArg Prod.snd hpure
    exact received_of_writeJson hwrite

theorem received_of_writeParts {paths : Option Path × Option Path}
    (h : runOn machine (writeParts project r) = (.ok paths, machine')) :
    machine.Received machine' (project.partFiles r) := by
  simp only [writeParts, runOn_bind_eq_ok, runOn_pure, Prod.mk.injEq] at h
  obtain ⟨_, next, htree, _, last, hgraph, -, rfl⟩ := h
  exact (received_of_writePart htree).append (received_of_writePart hgraph)

/-- A report is written in three steps: its parts are written, the inputs are hashed, and the summary
is written. -/
theorem steps_of_writeReport
    (h : runOn machine (writeReport project r) = (.ok written, machine')) :
    ∃ middle hashes, written.summary = project.layout.resolve project.config.outputs.summary ∧
      runOn machine (writeParts project r) = (.ok (written.tree?, written.graph?), middle) ∧
      runOn middle (hashInputs project) = (.ok hashes, middle) ∧
      runOn middle (writeJson written.summary (toJson (project.summaryFile r hashes))) =
        (.ok (), machine') := by
  simp only [writeReport, runOn_bind_eq_ok, runOn_pure, Prod.mk.injEq, Except.ok.injEq] at h
  obtain ⟨tree?, _, htree, graph?, middle, hgraph, hashes, _, hhashes, _, _, hsummary, rfl, rfl⟩ := h
  obtain ⟨rfl, -⟩ := heldOn_of_runOn_hashInputs hhashes
  refine ⟨_, hashes, rfl, ?_, hhashes, hsummary⟩
  simp only [writeParts, runOn_bind, htree, hgraph, runOn_pure]

/-! Inputs that are spared -/

/-- Nothing is written over an input or as a table among the overrides, and no tables come into reach
because a directory on the way to them was made. -/
structure SparesInputs (project : Project) (files : InputFiles) (machine middle : Machine)
    (written : List (Path × ByteArray)) : Prop where
  notOver : ∀ e ∈ written,
    ∀ input ∈ project.classesFile :: project.functionsFile :: files.overrides.map Prod.fst,
      middle.find? e.1 ≠ middle.find? input
  notAmong : ∀ e ∈ written, ∀ directory, middle.find? project.overridesDirectory = some directory →
    ∀ name, isTableName name = true → middle.find? e.1 ≠ some (directory ++ [name])
  notReached : ∀ directory, middle.find? project.overridesDirectory = some directory →
    middle.files.isDirectoryAt directory = true →
      machine.isDirectory project.overridesDirectory = true ∨
        (machine.files.fileNamesAt directory).filter isTableName = []

variable {parts : List (Path × ByteArray)}

theorem isDirectory_of_received (h : machine.Received middle parts) {directory : Path}
    (hdirectory : machine.isDirectory directory = true) : middle.isDirectory directory = true := by
  obtain ⟨place, hfind, hplace⟩ := (Option.any_eq_true _ _).mp hdirectory
  rw [Machine.isDirectory, h.find?_eq hfind, Option.any_some]
  exact h.grown.isDirectoryAt place hplace

/-- The override tables are listed as before. -/
theorem SparesInputs.tables_eq (hspares : project.SparesInputs files machine middle parts)
    (h : machine.Received middle parts) :
    middle.tables project.overridesDirectory = machine.tables project.overridesDirectory := by
  cases hmiddle : middle.isDirectory project.overridesDirectory with
  | false =>
    have hmachine : machine.isDirectory project.overridesDirectory = false := by
      rw [← Bool.not_eq_true]
      intro hdirectory
      rw [isDirectory_of_received h hdirectory] at hmiddle
      cases hmiddle
    rw [tables_of_isDirectory_eq_false hmiddle, tables_of_isDirectory_eq_false hmachine]
  | true =>
    obtain ⟨place, hfind, hplace⟩ := (Option.any_eq_true _ _).mp hmiddle
    have hnames : (middle.files.fileNamesAt place).filter isTableName =
        (machine.files.fileNamesAt place).filter isTableName :=
      h.filter_fileNamesAt fun e he => hspares.notAmong e he place hfind
    rw [tables_of_find? hfind hplace, hnames]
    cases hmachine : machine.isDirectory project.overridesDirectory with
    | true =>
      obtain ⟨place', hfind', hplace'⟩ := (Option.any_eq_true _ _).mp hmachine
      obtain rfl : place' = place := Option.some.inj ((h.find?_eq hfind').symm.trans hfind)
      rw [tables_of_find? hfind' hplace']
    | false =>
      rcases hspares.notReached place hfind hplace with hdirectory | hempty
      · rw [hmachine] at hdirectory
        cases hdirectory
      · rw [tables_of_isDirectory_eq_false hmachine, hempty, List.map_nil]

/-- The inputs are what they were before the writing. -/
theorem SparesInputs.heldOn (hspares : project.SparesInputs files machine middle parts)
    (h : machine.Received middle parts) (hheld : files.HeldOn machine project) :
    files.HeldOn middle project := by
  have hread {path : Path} {bytes : ByteArray}
      (hpath : path ∈ project.classesFile :: project.functionsFile ::
        files.overrides.map Prod.fst)
      (hbytes : machine.read? path = some bytes) : middle.read? path = some bytes :=
    h.read?_of_ne hbytes fun e he => hspares.notOver e he path hpath
  exact {
    classes := hread (by simp) hheld.classes
    functions := hread (by simp) hheld.functions
    tables := hheld.tables.trans (hspares.tables_eq h).symm
    overrides := fun e he => hread
      (List.mem_cons_of_mem _ (List.mem_cons_of_mem _ (List.mem_map_of_mem he)))
      (hheld.overrides e he) }

/-! Configurations that spare the inputs -/

/-- The paths of a configuration lead down by names only, and no tree or graph is written over a table
of classes or functions or as a table among the overrides. -/
structure KeepsApart (config : Config) : Prop where
  isPlain : ∀ p ∈ [config.inputs.classes, config.inputs.functions, config.inputs.overrides,
    config.outputs.tree, config.outputs.graph], p.IsPlain
  notOver : ∀ output ∈ [config.outputs.tree, config.outputs.graph],
    ∀ input ∈ [config.inputs.classes, config.inputs.functions], output.pieces ≠ input.pieces
  notAmong : ∀ output ∈ [config.outputs.tree, config.outputs.graph],
    ∀ name, isTableName name = true → output.pieces ≠ config.inputs.overrides.pieces ++ [name]

theorem path_of_mem_partFile {path : Path} {part? : Option Json} {e : Path × ByteArray}
    (h : e ∈ partFile path part?) : e.1 = path := by
  simp only [partFile, List.mem_map, Option.mem_toList] at h
  obtain ⟨_, -, rfl⟩ := h
  rfl

theorem path_of_mem_partFiles {e : Path × ByteArray} (h : e ∈ project.partFiles r) :
    ∃ output ∈ [project.config.outputs.tree, project.config.outputs.graph],
      e.1 = project.layout.resolve output := by
  rcases List.mem_append.mp h with htree | hgraph
  · exact ⟨_, by simp, path_of_mem_partFile htree⟩
  · exact ⟨_, by simp, path_of_mem_partFile hgraph⟩

theorem exists_origin_of_read? {p : Path} {bytes : ByteArray} (hp : p.IsPlain)
    (hread : machine.read? (project.layout.resolve p) = some bytes) :
    ∃ origin, machine.origin? project.layout.root = some origin := by
  simp only [Machine.read?, Option.bind_eq_bind, Option.bind_eq_some_iff] at hread
  obtain ⟨place, hfind, -⟩ := hread
  obtain ⟨origin, horigin, -⟩ := Machine.find?_join_of_isPlain hp hfind
  exact ⟨origin, horigin⟩

theorem exists_of_mem_tables {directory path : Path} (h : path ∈ machine.tables directory) :
    ∃ place name, machine.find? directory = some place ∧
      name ∈ machine.files.fileNamesAt place ∧ isTableName name = true ∧
      path = directory.join ⟨name⟩ := by
  cases hdirectory : machine.isDirectory directory with
  | false =>
    rw [tables_of_isDirectory_eq_false hdirectory] at h
    cases h
  | true =>
    obtain ⟨place, hfind, hplace⟩ := (Option.any_eq_true _ _).mp hdirectory
    rw [tables_of_find? hfind hplace] at h
    obtain ⟨name, hname, rfl⟩ := List.mem_map.mp h
    obtain ⟨hlisted, htable⟩ := List.mem_filter.mp hname
    exact ⟨place, name, hfind, hlisted, htable, rfl⟩

/-- A table that is listed is found in the directory of the overrides under its name. -/
theorem find?_of_mem_tables (hformed : machine.files.WellFormed)
    (h : machine.Received middle parts) {directory path : Path}
    (hpath : path ∈ machine.tables directory) {place : FileTree.Place}
    (hfind : middle.find? path = some place) :
    ∃ above name, middle.find? directory = some above ∧ isTableName name = true ∧
      place = above ++ [name] := by
  obtain ⟨above, name, habove, hlisted, htable, rfl⟩ := exists_of_mem_tables hpath
  obtain ⟨hname, hslash⟩ := hformed.isName _ _
    (FileTree.isSome_get?_of_fileAt? (FileTree.mem_fileNamesAt.mp hlisted))
  obtain ⟨origin, horigin, hplace⟩ :=
    Machine.find?_join_of_isPlain (FileTree.isPlain_of_isName hname hslash) hfind
  have hmiddle := h.find?_eq habove
  obtain rfl : above = origin :=
    Option.some.inj ((Machine.origin?_of_find? hmiddle).symm.trans horigin)
  exact ⟨above, name, hmiddle, htable, by rw [hplace, Path.pieces_of_not_mem hslash]⟩

/-- The directory of the overrides holds no tables unless it could be found before. -/
theorem isDirectory_or_filter_eq_nil (hformed : machine.files.WellFormed)
    (h : machine.Received middle parts) {root p : Path} (hp : p.IsPlain) {origin : FileTree.Place}
    (horigin : machine.origin? root = some origin) {directory : FileTree.Place}
    (hfind : middle.find? (root.join p) = some directory) :
    machine.isDirectory (root.join p) = true ∨
      (machine.files.fileNamesAt directory).filter isTableName = [] := by
  obtain rfl := h.eq_append_of_find?_join hp horigin hfind
  cases hplace : machine.files.isDirectoryAt (origin ++ p.pieces) with
  | false =>
    rw [hformed.fileNamesAt_eq_nil hplace]
    exact .inr rfl
  | true =>
    have hbefore := h.find?_join_eq hformed hp horigin
      (FileTree.isSome_get?_of_isDirectoryAt hplace) hfind
    rw [Machine.isDirectory, hbefore, Option.any_some]
    exact .inl hplace

/-- A part lies where its configured path leads from the root. -/
theorem find?_of_mem_partFiles (hapart : KeepsApart project.config)
    (h : machine.Received middle (project.partFiles r)) {origin : FileTree.Place}
    (horigin : machine.origin? project.layout.root = some origin) {e : Path × ByteArray}
    (he : e ∈ project.partFiles r) :
    ∃ output ∈ [project.config.outputs.tree, project.config.outputs.graph],
      middle.find? e.1 = some (origin ++ output.pieces) := by
  obtain ⟨output, houtput, hpath⟩ := path_of_mem_partFiles he
  obtain ⟨place, hfind⟩ := Option.isSome_iff_exists.mp (h.found e he)
  have hp : output.IsPlain := hapart.isPlain output (by simp_all)
  refine ⟨output, houtput, ?_⟩
  rw [hpath] at hfind ⊢
  rw [hfind, h.eq_append_of_find?_join hp horigin hfind]

/-- Configurations that keep inputs and outputs apart spare the inputs. -/
theorem sparesInputs_of_keepsApart (hapart : KeepsApart project.config)
    (hformed : machine.files.WellFormed) (hheld : files.HeldOn machine project)
    (h : machine.Received middle (project.partFiles r)) :
    project.SparesInputs files machine middle (project.partFiles r) := by
  have hclasses := hapart.isPlain project.config.inputs.classes (by simp)
  have hfunctions := hapart.isPlain project.config.inputs.functions (by simp)
  have hoverrides := hapart.isPlain project.config.inputs.overrides (by simp)
  obtain ⟨origin, horigin⟩ := exists_origin_of_read? hclasses hheld.classes
  constructor
  case notOver =>
    intro e he input hinput heq
    obtain ⟨output, houtput, hfind⟩ := find?_of_mem_partFiles hapart h horigin he
    rw [hfind] at heq
    rw [List.mem_cons, List.mem_cons, hheld.tables] at hinput
    rcases hinput with rfl | rfl | htable
    · have happend := h.eq_append_of_find?_join hclasses horigin heq.symm
      exact hapart.notOver output houtput _ (by simp) (List.append_cancel_left happend)
    · have happend := h.eq_append_of_find?_join hfunctions horigin heq.symm
      exact hapart.notOver output houtput _ (by simp) (List.append_cancel_left happend)
    · obtain ⟨above, name, habove, hname, happend⟩ := find?_of_mem_tables hformed h htable heq.symm
      rw [h.eq_append_of_find?_join hoverrides horigin habove, List.append_assoc] at happend
      exact hapart.notAmong output houtput name hname (List.append_cancel_left happend)
  case notAmong =>
    intro e he directory hdirectory name hname heq
    obtain ⟨output, houtput, hfind⟩ := find?_of_mem_partFiles hapart h horigin he
    rw [hfind, Option.some.injEq, h.eq_append_of_find?_join hoverrides horigin hdirectory,
      List.append_assoc] at heq
    exact hapart.notAmong output houtput name hname (List.append_cancel_left heq)
  case notReached =>
    exact fun directory hdirectory _ =>
      isDirectory_or_filter_eq_nil hformed h hoverrides horigin hdirectory

/-- The configuration that a project starts with keeps inputs and outputs apart. -/
theorem keepsApart_new (name : String) : KeepsApart (.new name) where
  isPlain := by
    change ∀ p ∈ [InputPaths.standard.classes, InputPaths.standard.functions,
      InputPaths.standard.overrides, OutputPaths.standard.tree, OutputPaths.standard.graph],
      p.IsPlain
    decide +kernel
  notOver := by
    change ∀ output ∈ [OutputPaths.standard.tree, OutputPaths.standard.graph],
      ∀ input ∈ [InputPaths.standard.classes, InputPaths.standard.functions],
        output.pieces ≠ input.pieces
    decide +kernel
  notAmong := by
    -- A table among the overrides lies one piece below their directory.
    have hlength : ∀ output ∈ [OutputPaths.standard.tree, OutputPaths.standard.graph],
        output.pieces.length ≠ InputPaths.standard.overrides.pieces.length + 1 := by decide +kernel
    intro output houtput name _ heq
    apply hlength output houtput
    rw [heq]
    simp [Config.new]

/-- A summary tells the digests of the inputs as they are when the parts have been written: each input
holds what the report was built from, unless a part was written over it. If all inputs are spared,
which is so whenever the configuration keeps them apart from the parts, the digests are those of the
files that the report was built from. -/
theorem recorded_hashes {machine machine₁ machine' : Machine} {root : Path} {format : ReportFormat}
    {project : Project} {r : Report} {written : WrittenReport}
    (hreport : runOn machine (report root format) = (.ok (project, r), machine₁))
    (hwrite : runOn machine₁ (writeReport project r) = (.ok written, machine')) :
    ∃ (before after : InputFiles) (s : Snapshot) (middle : Machine),
      before.HeldOn machine project ∧ before.snapshot? project = some s ∧
      Report.build s project.config.namespaceFilter format = .ok r ∧
      runOn machine (writeParts project r) = (.ok (written.tree?, written.graph?), middle) ∧
      machine.Received middle (project.partFiles r) ∧ after.HeldOn middle project ∧
      written.summary = project.layout.resolve project.config.outputs.summary ∧
      machine'.read? written.summary =
        some (toJson (project.summaryFile r after.hashes)).pretty.toUTF8 ∧
      (project.SparesInputs before machine middle (project.partFiles r) → after = before) ∧
      (KeepsApart project.config → machine.files.WellFormed →
        project.SparesInputs before machine middle (project.partFiles r)) := by
  obtain ⟨rfl, s, -, hsnapshot, hbuild⟩ := runOn_report_eq_ok.mp hreport
  obtain ⟨-, before, hbefore, hs⟩ := runOn_loadSnapshot_eq_ok_iff_heldOn.mp hsnapshot
  obtain ⟨middle, hashes, hpath, hparts, hhashes, hsummary⟩ := steps_of_writeReport hwrite
  obtain ⟨-, after, hafter, rfl⟩ := heldOn_of_runOn_hashInputs hhashes
  have hreceived := received_of_writeParts hparts
  have hrecorded := read?_of_writeJson hsummary
  refine ⟨before, after, s, middle, hbefore, hs, hbuild, hparts, hreceived, hafter, hpath, hrecorded,
    fun hspares => ?_, fun hapart hformed => ?_⟩
  · exact hafter.eq (hspares.heldOn hreceived hbefore)
  · exact sparesInputs_of_keepsApart hapart hformed hbefore hreceived

/-- A project with the configuration it was started with. -/
def heapProject : Project := ⟨⟨⟨"/work"⟩⟩, .new "heap"⟩

/-- Its files: a class, a function and two tables of overrides. -/
def heapMachine : Machine where
  workingDirectory := []
  files := ⟨.ofList [
    (["work"], .directory), (["work", ".progress"], .directory), (["work", "data"], .directory),
    (["work", "data", "overrides"], .directory),
    (["work", ".progress", "project.json"], .file (toJson heapProject.config).pretty.toUTF8),
    (["work", "data", "classes.json"], .file "[\"ksys::Heap\"]".toUTF8),
    (["work", "data", "functions.csv"],
      .file "Address,Quality,Size,Name\n10,O,8,_ZN4Heap4initEv\n".toUTF8),
    (["work", "data", "overrides", "notes.txt"], .file "none".toUTF8),
    (["work", "data", "overrides", "b.json"], .file "\x7b\x7d".toUTF8),
    (["work", "data", "overrides", "a.yaml"],
      .file "ksys:\n  Heap:\n    status: done\n".toUTF8)]⟩

theorem recorded_hashes_heapMachine :
    ∃ (r : Report) (written : WrittenReport) (machine' : Machine) (before : InputFiles),
      runOn heapMachine (report ⟨"/work"⟩ .both) = (.ok (heapProject, r), heapMachine) ∧
      runOn heapMachine (writeReport heapProject r) = (.ok written, machine') ∧
      before.HeldOn heapMachine heapProject ∧
      before.overrides.map Prod.fst =
        [⟨"/work/data/overrides/a.yaml"⟩, ⟨"/work/data/overrides/b.json"⟩] ∧
      machine'.read? written.summary =
        some (toJson (heapProject.summaryFile r before.hashes)).pretty.toUTF8 := by
  have hload : runOn heapMachine (load ⟨"/work"⟩) = (.ok heapProject, heapMachine) :=
    runOn_load_of_read? rfl
  have hok : ((runOn heapMachine heapProject.loadSnapshot).1.toOption.bind fun s =>
      (Report.build s heapProject.config.namespaceFilter .both).toOption.bind fun r =>
        (runOn heapMachine (writeReport heapProject r)).1.toOption).isSome = true := by
    decide +kernel
  simp only [Option.isSome_iff_exists, Option.bind_eq_some_iff] at hok
  obtain ⟨written, s, hs, r, hr, hw⟩ := hok
  have hsnapshot := (onlyReads_loadSnapshot heapProject).eq_ok hs
  have hreport := runOn_report_eq_ok.mpr ⟨rfl, s, hload, hsnapshot, toOption_eq_some_iff.mp hr⟩
  obtain ⟨machine', hwrite⟩ := exists_runOn_eq_ok hw
  obtain ⟨before, after, _, _, hbefore, -, -, -, -, -, -, hrecorded, hspared, hspares⟩ :=
    recorded_hashes hreport hwrite
  have hformed : heapMachine.files.WellFormed := by decide +kernel
  obtain rfl := hspared (hspares (keepsApart_new "heap") hformed)
  have htables : heapMachine.tables heapProject.overridesDirectory =
      [⟨"/work/data/overrides/a.yaml"⟩, ⟨"/work/data/overrides/b.json"⟩] := by decide +kernel
  exact ⟨r, written, machine', after, hreport, hwrite, hbefore, hbefore.tables.trans htables, hrecorded⟩

/-- A project whose tree is to be written over its table of classes. -/
def overwritingProject : Project where
  layout := ⟨⟨"/work"⟩⟩
  config := { Config.new "heap" with
    outputs := { OutputPaths.standard with tree := ⟨"data/classes.json"⟩ } }

def overwritingMachine : Machine where
  workingDirectory := []
  files := ⟨.ofList [
    (["work"], .directory), (["work", ".progress"], .directory), (["work", "data"], .directory),
    (["work", ".progress", "project.json"],
      .file (toJson overwritingProject.config).pretty.toUTF8),
    (["work", "data", "classes.json"], .file "[]".toUTF8),
    (["work", "data", "functions.csv"], .file "Address,Quality,Size,Name\n".toUTF8)]⟩

/-- The tree of a project without classes. -/
def emptyTree : Hierarchy.Tree := .node 0 "root" none []

def emptyReport : Report := ⟨[], some emptyTree, none, .empty⟩

theorem runOn_report_overwritingMachine :
    runOn overwritingMachine (report ⟨"/work"⟩ .tree) =
      (.ok (overwritingProject, emptyReport), overwritingMachine) := by
  have hload : runOn overwritingMachine (load ⟨"/work"⟩) =
      (.ok overwritingProject, overwritingMachine) := runOn_load_of_read? rfl
  have hclasses := (onlyReads_loadClasses overwritingProject.classesFile).eq_ok
    (show (runOn overwritingMachine _).1.toOption = some .empty by decide +kernel)
  have hfunctions := (onlyReads_loadFunctions overwritingProject.functionsFile).eq_ok
    (show (runOn overwritingMachine _).1.toOption = some [] by decide +kernel)
  have hoverrides := (onlyReads_loadOverrides overwritingProject.overridesDirectory).eq_ok
    (show (runOn overwritingMachine _).1.toOption = some .empty by decide +kernel)
  have hbuild : Report.build ⟨.empty, [], .empty⟩ overwritingProject.config.namespaceFilter .tree =
      .ok emptyReport := by cbv
  exact runOn_report_eq_ok.mpr ⟨rfl, _, hload,
    runOn_loadSnapshot_eq_ok.mpr ⟨rfl, hclasses, hfunctions, hoverrides⟩, hbuild⟩

/-- There the summary tells the digest of the tree instead of that of the table. -/
theorem exists_digest_of_written_tree :
    ∃ (written : WrittenReport) (machine' : Machine) (before : InputFiles) (text : String)
      (file : SummaryFile),
      runOn overwritingMachine (report ⟨"/work"⟩ .tree) =
        (.ok (overwritingProject, emptyReport), overwritingMachine) ∧
      runOn overwritingMachine (writeReport overwritingProject emptyReport) =
        (.ok written, machine') ∧
      before.HeldOn overwritingMachine overwritingProject ∧
      machine'.read? written.summary = some text.toUTF8 ∧ JsonForm.ofText? text = some file ∧
      file.inputs.classes ≠ Sha256.hexDigest before.classes := by
  have hreport := runOn_report_overwritingMachine
  obtain ⟨-, s, -, hsnapshot, -⟩ := runOn_report_eq_ok.mp hreport
  obtain ⟨-, before, hbefore, -⟩ := runOn_loadSnapshot_eq_ok_iff_heldOn.mp hsnapshot
  have hok : (runOn overwritingMachine
      (writeReport overwritingProject emptyReport)).1.toOption.isSome = true := by decide +kernel
  obtain ⟨written, hw⟩ := Option.isSome_iff_exists.mp hok
  obtain ⟨machine', hwrite⟩ := exists_runOn_eq_ok hw
  obtain ⟨middle, hashes, -, hparts, hhashes, hsummary⟩ := steps_of_writeReport hwrite
  obtain ⟨-, after, hafter, rfl⟩ := heldOn_of_runOn_hashInputs hhashes
  have hrecorded := read?_of_writeJson hsummary
  have hwords : emptyReport.summary.InWords :=
    ⟨by decide, ⟨by decide, by decide, by decide⟩, by decide, by decide, by decide, by decide,
      by rintro _ ⟨⟩⟩
  have hreceived : overwritingMachine.Received middle
      ([] ++ [(overwritingProject.classesFile, emptyTree.toJson.pretty.toUTF8)]) :=
    received_of_writeParts hparts
  have hclasses : before.classes = "[]".toUTF8 :=
    Option.some.inj (hbefore.classes.symm.trans rfl)
  have hwritten : after.classes = emptyTree.toJson.pretty.toUTF8 :=
    Option.some.inj (hafter.classes.symm.trans hreceived.read?_concat)
  refine ⟨written, machine', before, _, _, hreport, hwrite, hbefore, hrecorded,
    (readsAs_summaryFile hwords).ofText?_eq (.inr rfl), ?_⟩
  change Sha256.hexDigest after.classes ≠ _
  rw [hclasses, hwritten]
  decide +kernel

end Project

end DecompTracker
