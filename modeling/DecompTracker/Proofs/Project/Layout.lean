import DecompTracker.Proofs.Path
import DecompTracker.Proofs.Project.Written

/-! Paths as seen from the root of a project. Joining one to the root and taking the root off again
undo each other, up to what does not show in the components, however the root and the path are
written. So the paths that a project's inputs are shown with lead back to these inputs. -/
namespace DecompTracker

namespace Project

namespace Layout

variable {l : Layout} {p configured : Path}

theorem isAbsolute_resolve (hroot : l.root.isAbsolute = true) (configured : Path) :
    (l.resolve configured).isAbsolute = true := by
  cases h : configured.isAbsolute with
  | true => rwa [resolve, Path.join_of_isAbsolute h]
  | false => rwa [resolve, Path.isAbsolute_join h]

/-- A path is shown as the rest of it if it lies under the root, and else as it is. -/
theorem relative_cases (hroot : l.root.isAbsolute = true) (hp : p.isAbsolute = true) :
    l.relative p = p ∨ (l.relative p).isAbsolute = false ∧
      l.root.components ++ (l.relative p).steps = p.components := by
  by_cases hunder : l.root.components <+: p.components
  · obtain ⟨rest, hstrip, hrest, -, hsteps⟩ := Path.stripPrefix?_of_isPrefix hroot hp hunder
    rw [relative, hstrip]
    exact .inr ⟨hrest, hsteps⟩
  · rw [relative, Path.stripPrefix?_of_not_isPrefix hunder]
    exact .inl rfl

theorem components_resolve_relative (hroot : l.root.isAbsolute = true) (hp : p.isAbsolute = true) :
    (l.resolve (l.relative p)).components = p.components := by
  rcases relative_cases hroot hp with hsame | ⟨hrelative, hsteps⟩
  · rw [hsame, resolve, Path.join_of_isAbsolute hp]
  · rw [resolve, Path.components_join hroot hrelative, hsteps]

theorem components_relative_resolve (hroot : l.root.isAbsolute = true)
    (hrelative : configured.isAbsolute = false) (hdot : configured.start? = none) :
    (l.relative (l.resolve configured)).components = configured.components := by
  have hjoin : (l.resolve configured).components = l.root.components ++ configured.steps :=
    Path.components_join hroot hrelative
  obtain ⟨rest, hstrip, -, hstart, hsteps⟩ :=
    Path.stripPrefix?_of_isPrefix hroot (isAbsolute_resolve hroot configured)
      (hjoin ▸ List.prefix_append _ _)
  have hrest : rest.steps = configured.steps := List.append_cancel_left (hsteps.trans hjoin)
  rw [relative, hstrip, Option.getD_some, Path.components_of_start? hstart,
    Path.components_of_start? hdot, hrest]

end Layout

/-! What a project is shown with -/

/-- The paths of a project's inputs and the names they are shown under. -/
def namedInputs (project : Project) : List (String × Path) :=
  [("classes", project.classesFile), ("functions", project.functionsFile),
    ("overrides_dir", project.overridesDirectory)]

variable {machine machine' : Machine} {root : Path} {project : Project} {input : String × Path}
  {lines : List String}

theorem isAbsolute_of_mem_namedInputs (hroot : project.layout.root.isAbsolute = true)
    (h : input ∈ project.namedInputs) : input.2.isAbsolute = true := by
  simp only [namedInputs, List.mem_cons, List.not_mem_nil, or_false] at h
  rcases h with rfl | rfl | rfl <;> exact Layout.isAbsolute_resolve hroot _

theorem under?_projectJson (h : input ∈ project.namedInputs) (present : CommandLine.Presence) :
    (CommandLine.projectJson project present).under? ["inputs", input.1] =
      some (toJson (project.layout.relative input.2)) := by
  simp only [namedInputs, List.mem_cons, List.not_mem_nil, or_false] at h
  rcases h with rfl | rfl | rfl <;> rfl

theorem plain_projectJson (project : Project) (present : CommandLine.Presence) :
    (CommandLine.projectJson project present).Plain := by
  have hpath (p : Path) : (toJson p).Plain := .text p.text
  have htext (s : String) : (toJson s).Plain := .text s
  have hbool (b : Bool) : (Json.bool b).Plain := .bool b
  have hnamespaces := (readsAs_texts project.config.namespaces).plain
  refine .members ?_
  simp only [List.forall_mem_cons, hpath, htext, hnamespaces, true_and]
  refine ⟨.members ?_, .members ?_, by simp⟩
  · simp [hpath, hbool]
  · simp [hpath]

theorem isAbsolute_pathOf (place : FileTree.Place) : (Machine.pathOf place).isAbsolute = true := by
  simp [Machine.pathOf, Path.isAbsolute, String.toList_append]

/-- Commands work on absolute roots. -/
theorem isAbsolute_located (machine : Machine) (root : Path) :
    (located machine root).isAbsolute = true := by
  have hjoin : ((Machine.pathOf machine.workingDirectory).join root).isAbsolute = true :=
    Layout.isAbsolute_resolve (l := ⟨_⟩) (isAbsolute_pathOf _) root
  unfold located CommandLine.locate
  split
  · exact isAbsolute_pathOf _
  · simp only [bind, StateT.bind, FileStore.canonical?]
    cases machine.resolve? root with
    | none => exact hjoin
    | some place => exact isAbsolute_pathOf place

theorem layout_of_load (h : runOn machine (load root) = (.ok project, machine')) :
    project.layout = ⟨root⟩ := by
  rw [load, runOn_bind_eq_ok] at h
  obtain ⟨config, next, -, h⟩ := h
  cases h
  rfl

/-- A project that was found is shown in one text. -/
theorem exists_of_projectInfo
    (h : runOn machine (CommandLine.projectInfo root true) = (.ok lines, machine')) :
    ∃ (project : Project) (present : CommandLine.Presence),
      runOn machine (load (located machine root)) = (.ok project, machine) ∧
        lines = [(CommandLine.projectJson project present).pretty] := by
  simp only [CommandLine.projectInfo, runOn_bind_eq_ok] at h
  obtain ⟨found, _, hfound, project, _, hload, present, _, -, h⟩ := h
  rw [liftM, runOn_lift, locate_eq, Prod.mk.injEq, Except.ok.injEq] at hfound
  obtain ⟨rfl, rfl⟩ := hfound
  obtain rfl := (onlyReads_load _).eq_of_ok hload
  cases h
  exact ⟨project, present, hload, rfl⟩

theorem runOn_projectInfo_of_load
    (h : runOn machine (load (located machine root)) = (.ok project, machine)) :
    runOn machine (CommandLine.projectInfo root true) =
      (.ok [(CommandLine.projectJson project
        ((CommandLine.Presence.of project : StateM Machine _) machine).1).pretty], machine) := by
  simp only [CommandLine.projectInfo, runOn_bind, liftM, runOn_lift, locate_eq, h]
  rfl

/-- Every path leads from the root to where it led before it was seen from there, and a configured
path that does not start with `.` is seen from there as it was configured. The inputs of a project
are found by the paths that the project is shown with. -/
theorem Layout.shown_leadsBack :
    (∀ (l : Layout) (p : Path), l.root.isAbsolute = true → p.isAbsolute = true →
      (l.resolve (l.relative p)).components = p.components) ∧
    (∀ (l : Layout) (configured : Path), l.root.isAbsolute = true →
      configured.isAbsolute = false → configured.components.head? ≠ some .here →
        (l.relative (l.resolve configured)).components = configured.components) ∧
    (∀ (machine machine' : Machine) (root : Path) (lines : List String),
      runOn machine (CommandLine.projectInfo root true) = (.ok lines, machine') →
        ∃ (project : Project) (text : String) (j : Json),
          runOn machine (load (located machine root)) = (.ok project, machine) ∧
            lines = [text] ∧ Json.parse? text = some j ∧
              ∀ input ∈ project.namedInputs, ∃ shown : Path,
                j.under? ["inputs", input.1] = some (toJson shown) ∧
                  (project.layout.resolve shown).components = input.2.components) := by
  refine ⟨fun l p => components_resolve_relative, fun l configured hroot hrelative hdot => ?_,
    fun machine machine' root lines h => ?_⟩
  · exact components_relative_resolve hroot hrelative (Path.start?_eq_none hrelative hdot)
  · obtain ⟨project, present, hload, hlines⟩ := exists_of_projectInfo h
    have hroot : project.layout.root.isAbsolute = true := by
      rw [layout_of_load hload]
      exact isAbsolute_located machine root
    refine ⟨project, _, _, hload, hlines, (plain_projectJson project present).parse?_eq (.inr rfl),
      fun input hinput => ⟨_, under?_projectJson hinput present, ?_⟩⟩
    exact components_resolve_relative hroot (isAbsolute_of_mem_namedInputs hroot hinput)

/-- Its classes are under its root, its functions elsewhere, its overrides in the root itself. -/
def scatteredProject : Project where
  layout := ⟨⟨"/srv/demo"⟩⟩
  config :=
    { Config.new "demo" with
      inputs := ⟨⟨"data/./classes.json/"⟩, ⟨"/mnt//functions.csv"⟩, ⟨"."⟩⟩ }

def scatteredMachine : Machine where
  workingDirectory := ["srv"]
  files := ⟨.ofList [
    (["srv"], .directory), (["srv", "demo"], .directory),
    (["srv", "demo", ".progress"], .directory),
    (["srv", "demo", ".progress", "project.json"],
      .file (toJson scatteredProject.config).pretty.toUTF8)]⟩

theorem Layout.shown_leadsBack_scatteredProject :
    (Layout.relative ⟨⟨"/srv//demo/./"⟩⟩ ⟨"/srv/demo//data/../x/."⟩ = ⟨"data/../x"⟩ ∧
      (Layout.resolve ⟨⟨"/srv//demo/./"⟩⟩ (Layout.relative ⟨⟨"/srv//demo/./"⟩⟩
        ⟨"/srv/demo//data/../x/."⟩)).components =
          [.root, .name "srv", .name "demo", .name "data", .parent, .name "x"]) ∧
    (Layout.relative ⟨⟨"//"⟩⟩ (Layout.resolve ⟨⟨"//"⟩⟩ ⟨"data/./classes.json/"⟩)).components =
      [.name "data", .name "classes.json"] ∧
    ∃ (lines : List String) (text : String) (j : Json) (shown : Path),
      runOn scatteredMachine (CommandLine.projectInfo ⟨"demo//./"⟩ true) =
        (.ok lines, scatteredMachine) ∧
      lines = [text] ∧ Json.parse? text = some j ∧
        j.under? ["inputs", "functions"] = some (toJson shown) ∧
          (scatteredProject.layout.resolve shown).components =
            [.root, .name "mnt", .name "functions.csv"] := by
  obtain ⟨habsolute, hconfigured, hinfo⟩ := Layout.shown_leadsBack
  have hload : runOn scatteredMachine (load (located scatteredMachine ⟨"demo//./"⟩)) =
      (.ok scatteredProject, scatteredMachine) := by
    rw [show located scatteredMachine ⟨"demo//./"⟩ = ⟨"/srv/demo"⟩ by decide +kernel]
    exact runOn_load_of_read? rfl
  have hrun := runOn_projectInfo_of_load hload
  refine ⟨⟨by decide, (habsolute _ _ (by decide) (by decide)).trans (by decide)⟩,
    (hconfigured _ _ (by decide) (by decide) (by decide)).trans (by decide), ?_⟩
  obtain ⟨project, text, j, hproject, hlines, hparse, hshown⟩ := hinfo _ _ _ _ hrun
  obtain rfl : scatteredProject = project := by
    rw [hload] at hproject
    cases hproject
    rfl
  obtain ⟨shown, hunder, hback⟩ :=
    hshown ("functions", scatteredProject.functionsFile) (by simp [namedInputs])
  exact ⟨_, text, j, shown, hrun, hlines, hparse, hunder, hback.trans (by decide)⟩

end Project

end DecompTracker
