import DecompTracker.Proofs.Project.Reading
import DecompTracker.Proofs.Report.Parts

/-! The status of a single class. Looked up by its written name it is the one that the report gives,
since a name that was read from a text is read again from its written form, and since a report keeps
the status of every class as it was found. -/
namespace DecompTracker

open Hierarchy Project

/-! Statuses by name -/

theorem mem_classifyAll {classes : DependencyMap} {functions : List FunctionInfo}
    {overrides : OverrideTable} {c : ClassStatus} :
    c ∈ classifyAll classes functions overrides ↔
      c.name ∈ classes.keys ∧ (OwnerIndex.ofList functions).classify c.name overrides = c := by
  simp only [classifyAll, List.mem_map, (classOrder_perm classes).mem_iff]
  constructor
  · intro h
    obtain ⟨name, hname, rfl⟩ := h
    exact ⟨hname, rfl⟩
  · intro h
    exact ⟨c.name, h⟩

theorem ReadFromTexts.parse_joined {classes : DependencyMap} (h : ReadFromTexts classes)
    {name : QualifiedName} (hname : name ∈ classes.keys) :
    QualifiedName.parse name.joined = name := by
  obtain ⟨written, rfl⟩ := h name hname
  exact QualifiedName.parse_joined (QualifiedName.canonical_parse written)

theorem Snapshot.classify_parse_joined {s : Snapshot} {filter : NamespaceFilter}
    (h : ReadFromTexts s.classes) {c : ClassStatus} (hc : c ∈ s.statuses filter) :
    (OwnerIndex.ofList (s.functions.map FunctionEntry.resolve)).classify (.parse c.name.joined)
      s.overrides = c := by
  obtain ⟨hkey, hclassify⟩ := mem_classifyAll.mp hc
  rw [h.parse_joined (mem_keys_kept.mp hkey).1]
  exact hclassify

/-! Statuses on a machine -/

section machine

variable {machine machine' : Machine}

theorem readFromTexts_of_loadClasses {path : Path} {classes : DependencyMap}
    (h : runOn machine (loadClasses path) = (.ok classes, machine')) : ReadFromTexts classes := by
  simp only [loadClasses, runOn_bind_eq_ok] at h
  obtain ⟨text, _, -, table, _, -, h⟩ := h
  obtain rfl : table.dependencies = classes := by simpa using congrArg Prod.fst h
  exact table.readFromTexts_dependencies

/-- The command for one class reads the functions and overrides that a report is built from. -/
theorem runOn_statusOf {root : Path} {project : Project} {s : Snapshot}
    (hload : runOn machine (load (located machine root)) = (.ok project, machine))
    (hsnapshot : runOn machine project.loadSnapshot = (.ok s, machine)) (written : String) :
    runOn machine (CommandLine.statusOf root written) =
      (.ok ((OwnerIndex.ofList (s.functions.map FunctionEntry.resolve)).classify (.parse written)
        s.overrides), machine) := by
  obtain ⟨-, -, hfunctions, hoverrides⟩ := runOn_loadSnapshot_eq_ok.mp hsnapshot
  simp only [CommandLine.statusOf, runOn_bind, runOn_lift, locate_eq, hload, hfunctions, hoverrides,
    runOn_pure]

end machine

/-- Asking for one class of a report gives its status in the report, from the same functions and
overrides and by the commands on a machine. -/
theorem Report.build_agrees_with_statusOf :
    (∀ (s : Snapshot) (filter : NamespaceFilter) (format : ReportFormat) (r : Report),
      ReadFromTexts s.classes → Report.build s filter format = .ok r → ∀ c ∈ r.statuses,
        (OwnerIndex.ofList (s.functions.map FunctionEntry.resolve)).classify
          (.parse c.name.joined) s.overrides = c) ∧
    ∀ (machine machine' : Machine) (root : Path) (format : ReportFormat) (project : Project)
      (r : Report),
      runOn machine (report (located machine root) format) = (.ok (project, r), machine') →
        ∀ c ∈ r.statuses,
          runOn machine (CommandLine.statusOf root c.name.joined) = (.ok c, machine) := by
  have hpure (s : Snapshot) (filter : NamespaceFilter) (format : ReportFormat) (r : Report)
      (hnames : ReadFromTexts s.classes) (hr : Report.build s filter format = .ok r) :
      ∀ c ∈ r.statuses, (OwnerIndex.ofList (s.functions.map FunctionEntry.resolve)).classify
        (.parse c.name.joined) s.overrides = c := by
    intro c hc
    rw [(madeFrom_of_build hr).statuses] at hc
    exact Snapshot.classify_parse_joined hnames hc
  refine ⟨hpure, fun machine machine' root format project r h c hc => ?_⟩
  obtain ⟨-, s, hload, hsnapshot, hbuild⟩ := runOn_report_eq_ok.mp h
  have hnames := readFromTexts_of_loadClasses (runOn_loadSnapshot_eq_ok.mp hsnapshot).2.1
  rw [runOn_statusOf hload hsnapshot, hpure s _ format r hnames hbuild c hc]

/-- Two classes that are told apart by a stray colon, and a function of one of them. -/
def heapSnapshot : Snapshot where
  classes := .ofList [(.parse "ksys::Heap", .ofList []), (.parse "ksys:::Heap", .ofList [])]
  functions := [⟨0x10, .decompiled, 8, "_ZN4Heap4initEv"⟩]
  overrides := .empty

def heapProject : Project := ⟨⟨⟨"/work"⟩⟩, .new "heap"⟩

/-- A machine with a project that holds these classes and functions. -/
def heapMachine : Machine where
  workingDirectory := ["work"]
  files := ⟨.ofList [
    (["work"], .directory), (["work", ".progress"], .directory), (["work", "data"], .directory),
    (["work", ".progress", "project.json"],
      .file "\x7b\"name\":\"heap\",\"config_version\":\"0.1.0\"\x7d".toUTF8),
    (["work", "data", "classes.json"], .file "[\"ksys::Heap\",\"ksys:::Heap\"]".toUTF8),
    (["work", "data", "functions.csv"],
      .file "Address,Quality,Size,Name\n10,O,8,_ZN4Heap4initEv\n".toUTF8)]⟩

theorem Report.build_agrees_with_statusOf_heapMachine :
    ReadFromTexts heapSnapshot.classes ∧
      ∃ r, Report.build heapSnapshot heapProject.config.namespaceFilter .both = .ok r ∧
        (r.statuses.map fun c => c.status) = [.undecompiled, .decompiled] ∧
        runOn heapMachine (report (located heapMachine ⟨"."⟩) .both) =
          (.ok (heapProject, r), heapMachine) ∧
        ∀ c ∈ r.statuses,
          (OwnerIndex.ofList (heapSnapshot.functions.map FunctionEntry.resolve)).classify
            (.parse c.name.joined) heapSnapshot.overrides = c ∧
          runOn heapMachine (CommandLine.statusOf ⟨"."⟩ c.name.joined) = (.ok c, heapMachine) := by
  have hnames : ReadFromTexts heapSnapshot.classes :=
    (ClassTable.plain ["ksys::Heap", "ksys:::Heap"]).readFromTexts_dependencies
  obtain ⟨r, hr, hstatuses⟩ : ∃ r,
      Report.build heapSnapshot heapProject.config.namespaceFilter .both = .ok r ∧
        (r.statuses.map fun c => c.status) = [.undecompiled, .decompiled] := by
    rw [Report.build_eq, Snapshot.summary, Snapshot.statuses_of_ordered (by decide +kernel)]
    exact exists_ok_of_any (by decide +kernel)
  have hload : runOn heapMachine (load (located heapMachine ⟨"."⟩)) =
      (.ok heapProject, heapMachine) := (onlyReads_load _).eq_ok (by decide +kernel)
  have hsnapshot : runOn heapMachine heapProject.loadSnapshot =
      (.ok heapSnapshot, heapMachine) :=
    runOn_loadSnapshot_eq_ok.mpr ⟨rfl, (onlyReads_loadClasses _).eq_ok (by decide +kernel),
      (onlyReads_loadFunctions _).eq_ok (by decide +kernel),
      (onlyReads_loadOverrides _).eq_ok (by decide +kernel)⟩
  have hreport := runOn_report_eq_ok.mpr ⟨rfl, heapSnapshot, hload, hsnapshot, hr⟩
  refine ⟨hnames, r, hr, hstatuses, hreport, fun c hc => ⟨?_, ?_⟩⟩
  · exact Report.build_agrees_with_statusOf.1 heapSnapshot _ .both r hnames hr c hc
  · exact Report.build_agrees_with_statusOf.2 _ _ ⟨"."⟩ .both heapProject r hreport c hc

end DecompTracker
