import DecompTracker.CommandLine.Commands
import DecompTracker.Proofs.Results

/-! Actions on a machine. An action that only reads leaves the machine as it is, so what it has read
is read again by any later one. Loading a project and its inputs does nothing but read. -/
namespace DecompTracker.Project

/-- How an action ends on a machine, and the machine it leaves. -/
def runOn {α : Type} (machine : Machine) (action : ExceptT Failure (StateM Machine) α) :
    Except Failure α × Machine :=
  action.run machine

variable {α β : Type} {machine machine' : Machine}

@[simp] theorem runOn_pure (a : α) : runOn machine (pure a) = (.ok a, machine) := rfl

@[simp] theorem runOn_lift (x : StateM Machine α) :
    runOn machine (monadLift x) = (.ok (x machine).1, (x machine).2) := rfl

theorem runOn_bind (x : ExceptT Failure (StateM Machine) α)
    (f : α → ExceptT Failure (StateM Machine) β) :
    runOn machine (x >>= f) =
      match runOn machine x with
      | (.ok a, next) => runOn next (f a)
      | (.error e, next) => (.error e, next) := by
  have h : runOn machine (x >>= f) = ExceptT.bindCont f (x.run machine).1 (x.run machine).2 := rfl
  rw [h, runOn]
  rcases x.run machine with ⟨_ | _, next⟩ <;> rfl

/-- An action that ends well has done so in all its parts. -/
theorem runOn_bind_eq_ok {x : ExceptT Failure (StateM Machine) α}
    {f : α → ExceptT Failure (StateM Machine) β} {b : β} :
    runOn machine (x >>= f) = (.ok b, machine') ↔
      ∃ a next, runOn machine x = (.ok a, next) ∧ runOn next (f a) = (.ok b, machine') := by
  rw [runOn_bind]
  rcases runOn machine x with ⟨_ | a, next⟩
  · simp
  · constructor
    · intro h
      exact ⟨a, next, rfl, h⟩
    · intro h
      obtain ⟨_, _, hfirst, h⟩ := h
      obtain ⟨rfl, rfl⟩ : a = _ ∧ next = _ := by simpa using hfirst
      exact h

/-- An action that leaves the machine as it is. -/
def OnlyReads (x : ExceptT Failure (StateM Machine) α) : Prop :=
  ∀ machine, (runOn machine x).2 = machine

theorem onlyReads_pure (a : α) : OnlyReads (pure a) := fun _ => rfl

theorem onlyReads_throw (e : Failure) :
    OnlyReads (throw e : ExceptT Failure (StateM Machine) α) := fun _ => rfl

theorem onlyReads_except (x : Except Failure α) : OnlyReads (monadLift x) := fun _ => rfl

theorem OnlyReads.bind {x : ExceptT Failure (StateM Machine) α}
    {f : α → ExceptT Failure (StateM Machine) β} (hx : OnlyReads x) (hf : ∀ a, OnlyReads (f a)) :
    OnlyReads (x >>= f) := by
  intro machine
  have h := hx machine
  rw [runOn_bind]
  generalize runOn machine x = ended at h ⊢
  obtain ⟨result, next⟩ := ended
  obtain rfl : next = machine := h
  cases result with
  | error e => rfl
  | ok a => exact hf a next

theorem OnlyReads.eq_of_ok {x : ExceptT Failure (StateM Machine) α} (hx : OnlyReads x) {a : α}
    (h : runOn machine x = (.ok a, machine')) : machine' = machine := by
  rw [← hx machine, h]

/-- An action that only reads ends alike on the machine that it leaves. -/
theorem OnlyReads.eq_ok {x : ExceptT Failure (StateM Machine) α} (hx : OnlyReads x) {a : α}
    (h : (runOn machine x).1.toOption = some a) : runOn machine x = (.ok a, machine) :=
  Prod.ext (toOption_eq_some_iff.mp h) (hx machine)

theorem exists_runOn_eq_ok {x : ExceptT Failure (StateM Machine) α} {a : α}
    (h : (runOn machine x).1.toOption = some a) : ∃ next, runOn machine x = (.ok a, next) :=
  ⟨_, Prod.ext (toOption_eq_some_iff.mp h) rfl⟩

theorem onlyReads_readText (kind : InputKind) (path : Path) :
    OnlyReads (readText kind path : ExceptT Failure (StateM Machine) String) := by
  refine OnlyReads.bind (fun _ => rfl) fun bytes? => ?_
  cases bytes?.bind String.fromUTF8? with
  | none => exact onlyReads_throw _
  | some text => exact onlyReads_pure text

theorem onlyReads_orFail (e : Failure) (a? : Option α) :
    OnlyReads (orFail e a? : ExceptT Failure (StateM Machine) α) := by
  cases a? with
  | none => exact onlyReads_throw e
  | some a => exact onlyReads_pure a

theorem onlyReads_load (root : Path) :
    OnlyReads (load root : ExceptT Failure (StateM Machine) Project) :=
  ((onlyReads_readText .config _).bind fun _ => onlyReads_orFail _ _).bind fun _ =>
    onlyReads_pure _

theorem onlyReads_loadClasses (path : Path) :
    OnlyReads (loadClasses path : ExceptT Failure (StateM Machine) Hierarchy.DependencyMap) :=
  (onlyReads_readText .classes path).bind fun _ =>
    (onlyReads_orFail _ _).bind fun _ => onlyReads_pure _

theorem onlyReads_loadFunctions (path : Path) :
    OnlyReads (loadFunctions path : ExceptT Failure (StateM Machine) (List FunctionEntry)) := by
  refine (onlyReads_readText .functions path).bind fun text => ?_
  split
  · exact onlyReads_except _
  · exact onlyReads_except _

theorem onlyReads_overrideFiles (directory : Path) :
    OnlyReads (overrideFiles directory : ExceptT Failure (StateM Machine) (List Path)) := by
  refine OnlyReads.bind (fun _ => rfl) fun isDirectory => ?_
  cases isDirectory with
  | false => exact onlyReads_pure []
  | true =>
    refine OnlyReads.bind (fun _ => rfl) fun names? => ?_
    exact (onlyReads_orFail _ names?).bind fun _ => onlyReads_pure _

theorem onlyReads_loadOverrideFile (table : OverrideTable) (path : Path) :
    OnlyReads (loadOverrideFile table path : ExceptT Failure (StateM Machine) OverrideTable) :=
  (onlyReads_readText .overrideTable path).bind fun _ =>
    (onlyReads_orFail _ _).bind fun _ => onlyReads_pure _

theorem onlyReads_foldlM {f : β → α → ExceptT Failure (StateM Machine) β}
    (hf : ∀ b a, OnlyReads (f b a)) (b : β) (items : List α) : OnlyReads (items.foldlM f b) := by
  induction items generalizing b with
  | nil => exact onlyReads_pure b
  | cons a items ih =>
    rw [List.foldlM_cons]
    exact (hf b a).bind ih

theorem onlyReads_loadOverrides (directory : Path) :
    OnlyReads (loadOverrides directory : ExceptT Failure (StateM Machine) OverrideTable) :=
  (onlyReads_overrideFiles directory).bind fun paths =>
    onlyReads_foldlM onlyReads_loadOverrideFile .empty paths

theorem onlyReads_loadSnapshot (project : Project) :
    OnlyReads (project.loadSnapshot : ExceptT Failure (StateM Machine) Snapshot) :=
  (onlyReads_loadClasses _).bind fun _ => (onlyReads_loadFunctions _).bind fun _ =>
    (onlyReads_loadOverrides _).bind fun _ => onlyReads_pure _

/-- The parts of a snapshot are loaded each by itself. -/
theorem runOn_loadSnapshot_eq_ok {project : Project} {s : Snapshot} :
    runOn machine project.loadSnapshot = (.ok s, machine') ↔
      machine' = machine ∧
        runOn machine (loadClasses project.classesFile) = (.ok s.classes, machine) ∧
        runOn machine (loadFunctions project.functionsFile) = (.ok s.functions, machine) ∧
        runOn machine (loadOverrides project.overridesDirectory) = (.ok s.overrides, machine) := by
  constructor
  · intro h
    simp only [loadSnapshot, runOn_bind_eq_ok] at h
    obtain ⟨classes, _, hclasses, functions, _, hfunctions, overrides, _, hoverrides, h⟩ := h
    obtain rfl := (onlyReads_loadClasses _).eq_of_ok hclasses
    obtain rfl := (onlyReads_loadFunctions _).eq_of_ok hfunctions
    obtain rfl := (onlyReads_loadOverrides _).eq_of_ok hoverrides
    obtain ⟨rfl, rfl⟩ : (⟨classes, functions, overrides⟩ : Snapshot) = s ∧ _ = machine' := by
      simpa using h
    exact ⟨rfl, hclasses, hfunctions, hoverrides⟩
  · intro h
    obtain ⟨rfl, hclasses, hfunctions, hoverrides⟩ := h
    simp only [loadSnapshot, runOn_bind, hclasses, hfunctions, hoverrides, runOn_pure]

/-- A report is built from the snapshot of the project at its root. -/
theorem runOn_report_eq_ok {root : Path} {format : ReportFormat} {project : Project} {r : Report} :
    runOn machine (report root format) = (.ok (project, r), machine') ↔
      machine' = machine ∧ ∃ s, runOn machine (load root) = (.ok project, machine) ∧
        runOn machine project.loadSnapshot = (.ok s, machine) ∧
        Report.build s project.config.namespaceFilter format = .ok r := by
  constructor
  · intro h
    simp only [report, runOn_bind_eq_ok] at h
    obtain ⟨project', _, hload, s, _, hsnapshot, r', _, hbuild, h⟩ := h
    obtain rfl := (onlyReads_load root).eq_of_ok hload
    obtain rfl := (onlyReads_loadSnapshot project').eq_of_ok hsnapshot
    obtain rfl := (onlyReads_except _).eq_of_ok hbuild
    obtain ⟨⟨rfl, rfl⟩, rfl⟩ : (project' = project ∧ r' = r) ∧ _ = machine' := by simpa using h
    refine ⟨rfl, s, hload, hsnapshot, ?_⟩
    rw [← toOption_eq_some_iff, ← toOption_mapError, toOption_eq_some_iff]
    exact congrArg Prod.fst hbuild
  · intro h
    obtain ⟨rfl, s, hload, hsnapshot, hbuild⟩ := h
    simp only [report, runOn_bind, hload, hsnapshot, hbuild]
    rfl

/-! Single readings -/

theorem runOn_readText_eq_ok {kind : InputKind} {path : Path} {text : String} :
    runOn machine (readText kind path) = (.ok text, machine') ↔
      machine' = machine ∧ ∃ bytes, machine.read? path = some bytes ∧
        String.fromUTF8? bytes = some text := by
  have hread : (FileStore.read? path : StateM Machine (Option ByteArray)) machine =
      (machine.read? path, machine) := rfl
  rw [← Option.bind_eq_some_iff, readText, runOn_bind, runOn_lift, hread]
  dsimp only
  cases (machine.read? path).bind String.fromUTF8? with
  | none =>
    have hthrow : runOn machine (throw (.unreadable kind path) : ExceptT _ _ String) =
        (.error (.unreadable kind path), machine) := rfl
    simp [hthrow]
  | some found => simp [and_comm, eq_comm]

theorem runOn_orFail_eq_ok {α : Type} {e : Failure} {a? : Option α} {a : α} :
    runOn machine (orFail e a?) = (.ok a, machine') ↔ machine' = machine ∧ a? = some a := by
  cases a? with
  | none =>
    have hthrow : runOn machine (orFail e (none : Option α)) = (.error e, machine) := rfl
    simp [hthrow]
  | some found =>
    have hreturn : runOn machine (orFail e (some found)) = (.ok found, machine) := rfl
    simp [hreturn, and_comm, eq_comm]

theorem runOn_except_eq_ok {α : Type} {x : Except Failure α} {a : α} :
    runOn machine (monadLift x) = (.ok a, machine') ↔ machine' = machine ∧ x.toOption = some a := by
  have hlift : runOn machine (monadLift x) = (x, machine) := by cases x <;> rfl
  rw [hlift, Prod.mk.injEq]
  cases x <;> simp [Except.toOption, and_comm, eq_comm]

/-! Roots -/

/-- Where the root of a command lies. -/
def located (machine : Machine) (root : Path) : Path :=
  ((CommandLine.locate root : StateM Machine Path) machine).1

theorem locate_eq (machine : Machine) (root : Path) :
    (CommandLine.locate root : StateM Machine Path) machine = (located machine root, machine) := by
  refine Prod.ext rfl ?_
  unfold CommandLine.locate
  split
  · rfl
  · simp only [bind, StateT.bind, FileStore.canonical?]
    cases machine.resolve? root <;> rfl

end DecompTracker.Project
