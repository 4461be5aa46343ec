import DecompTracker.Proofs.FileStore
import DecompTracker.Proofs.Forms.ReadBack
import DecompTracker.Proofs.Project.Reading

/-! What has been written is read back: a text from its file, a value from its JSON texts, and from
the file that a new project starts with its configuration. -/
namespace DecompTracker

namespace Project

variable {machine machine' : Machine}

theorem fromUTF8?_toUTF8 (s : String) : String.fromUTF8? s.toUTF8 = some s := by
  have hvalid : s.toUTF8.IsValidUTF8 := s.isValidUTF8
  rw [String.fromUTF8?, dif_pos hvalid]
  rfl

theorem write?_of_writeText {failure : Failure} {path : Path} {text : String}
    (h : runOn machine (writeText failure path text) = (.ok (), machine')) :
    machine.write? path text.toUTF8 = some machine' := by
  cases hwritten : machine.write? path text.toUTF8 with
  | none =>
    have hstore : (FileStore.write path text.toUTF8 : StateM Machine Bool) machine =
        (false, machine) := by simp only [FileStore.write, hwritten]
    rw [writeText, runOn_bind, liftM, runOn_lift, hstore] at h
    cases h
  | some written =>
    have hstore : (FileStore.write path text.toUTF8 : StateM Machine Bool) machine =
        (true, written) := by simp only [FileStore.write, hwritten]
    rw [writeText, runOn_bind, liftM, runOn_lift, hstore] at h
    exact congrArg (some ∘ Prod.snd) h

/-- A project is loaded with the configuration that was written for it. -/
theorem runOn_load_of_read? {root : Path} {config : Config}
    (h : machine.read? (Layout.configFile ⟨root⟩) = some (toJson config).pretty.toUTF8) :
    runOn machine (load root) = (.ok ⟨⟨root⟩, config⟩, machine) := by
  have hconfig := (readsAs_config config).ofText?_eq (.inr rfl)
  have hread : runOn machine (readText .config (Layout.configFile ⟨root⟩)) =
      (.ok (toJson config).pretty, machine) :=
    runOn_readText_eq_ok.mpr ⟨rfl, _, h, fromUTF8?_toUTF8 _⟩
  rw [load, runOn_bind, loadConfig, runOn_bind, hread]
  simp only [hconfig]
  rfl

/-- A new project is loaded with the configuration it was given. -/
theorem runOn_load_of_initProject {root : Path} {name? : Option String} {lines : List String}
    (h : runOn machine (CommandLine.initProject root name?) = (.ok lines, machine')) :
    runOn machine' (load (located machine root)) =
      (.ok ⟨⟨located machine root⟩, .new (name?.getD (nameOfRoot (located machine root)))⟩,
        machine') := by
  simp only [CommandLine.initProject, runOn_bind_eq_ok] at h
  obtain ⟨found, _, hfound, _, _, -, _, _, -, _, _, -, _, written, hwrite, h⟩ := h
  obtain rfl : located machine root = found := by
    rw [liftM, runOn_lift] at hfound
    simpa [located] using congrArg Prod.fst hfound
  obtain rfl : written = machine' := congrArg Prod.snd h
  exact runOn_load_of_read? (Machine.read?_of_write? (write?_of_writeText hwrite))

end Project

open Project Text

/-- A value is read from each of its texts. -/
def ReadsBack {α : Type} [JsonForm α] (a : α) : Prop :=
  ∀ text, Json.IsTextOf text (toJson a) → JsonForm.ofText? text = some a

/-- A value is read from each of its texts exactly when a condition holds. -/
def ReadsBackWhen {α : Type} [JsonForm α] (condition : Prop) (a : α) : Prop :=
  ∀ text, Json.IsTextOf text (toJson a) → (JsonForm.ofText? text = some a ↔ condition)

theorem Json.ReadsAs.readsBack {α : Type} [JsonForm α] {a : α} (h : (toJson a).ReadsAs a) :
    ReadsBack a := fun _ ht => h.ofText?_eq ht

theorem Json.ReadsAs.readsBackWhen {α : Type} [JsonForm α] {a a' : α} {condition : Prop}
    (h : (toJson a).ReadsAs a') (hcondition : a' = a ↔ condition) : ReadsBackWhen condition a := by
  intro text ht
  rw [h.ofText?_eq ht, Option.some.injEq, hcondition]

/-- Values whose numbers are machine words are read from both of their texts, but what holds a name
only when that name is the one in its joined text. So a new project is loaded with the configuration
that was written for it. -/
theorem readsBack_of_inWords :
    (∀ f : FunctionEntry, f.InWords → ReadsBack f) ∧
    (∀ n : StatusCounts, n.InWords → ReadsBack n) ∧
    (∀ s : Summary, s.InWords → ReadsBack s) ∧
    (∀ f : NamespaceFilter, ReadsBack f) ∧
    (∀ p : InputPaths, ReadsBack p) ∧
    (∀ p : OutputPaths, ReadsBack p) ∧
    (∀ c : Config, ReadsBack c) ∧
    (∀ h : InputHashes, ReadsBack h) ∧
    (∀ s : SummaryFile, s.summary.InWords → ReadsBack s) ∧
    (∀ c : ClassStatus, c.InWords →
      ReadsBackWhen (QualifiedName.parse c.name.joined = c.name) c) ∧
    (∀ f : FunctionInfo, f.InWords →
      ReadsBackWhen (QualifiedName.parse f.name.joined = f.name) f) ∧
    (∀ o : StatusOverride, ReadsBackWhen (QualifiedName.parse o.name.joined = o.name) o) ∧
    ∀ (machine machine' : Machine) (root : Path) (name? : Option String) (lines : List String),
      runOn machine (CommandLine.initProject root name?) = (.ok lines, machine') →
      runOn machine' (load (located machine root)) =
        (.ok ⟨⟨located machine root⟩, .new (name?.getD (nameOfRoot (located machine root)))⟩,
          machine') := by
  refine ⟨fun f hf => (readsAs_functionEntry hf).readsBack,
    fun n hn => (readsAs_statusCounts hn).readsBack, fun s hs => (readsAs_summary hs).readsBack,
    fun f => (readsAs_namespaceFilter f).readsBack, fun p => (readsAs_inputPaths p).readsBack,
    fun p => (readsAs_outputPaths p).readsBack, fun c => (readsAs_config c).readsBack,
    fun h => (readsAs_inputHashes h).readsBack, fun s hs => (readsAs_summaryFile hs).readsBack,
    fun c hc => (readsAs_classStatus hc).readsBackWhen ?_,
    fun f hf => (readsAs_functionInfo hf).readsBackWhen ?_,
    fun o => (readsAs_statusOverride o).readsBackWhen ?_,
    fun _ _ _ _ _ h => runOn_load_of_initProject h⟩
  · cases c; simp
  · cases f; simp
  · cases o; simp

/-- A summary with every kind of character in its texts and a number that just fits in a word. -/
def quotedSummary : SummaryFile where
  project := "say \"\\\t\x01é"
  toolVersion := toolVersion
  inputs := ⟨"00", "ff", [("a\nb", "")]⟩
  summary := { Summary.empty with
    totalSize := maxWord
    perNamespace := .ofList [("", .zero), ("\"", .zero)] }

/-- The status of a class whose only segment looks like two. -/
def splitStatus : ClassStatus :=
  { status := .partly, methodCount := 2, totalSize := 16, name := ⟨["a::b"], by simp⟩ }

/-- A machine with nothing but the directory it works in. -/
def freshMachine : Machine where
  workingDirectory := ["work"]
  files := ⟨.ofList [(["work"], .directory)]⟩

theorem readsBack_of_inWords_freshMachine :
    quotedSummary.summary.InWords ∧
      JsonForm.ofText? (toJson quotedSummary).compact = some quotedSummary ∧
      JsonForm.ofText? (toJson quotedSummary).pretty = some quotedSummary ∧
    splitStatus.InWords ∧ JsonForm.ofText? (toJson splitStatus).pretty ≠ some splitStatus ∧
    ∃ lines machine',
      runOn freshMachine (CommandLine.initProject ⟨"."⟩ (some "\"heap\"")) = (.ok lines, machine') ∧
        runOn machine' (load (located freshMachine ⟨"."⟩)) =
          (.ok ⟨⟨located freshMachine ⟨"."⟩⟩, .new "\"heap\""⟩, machine') := by
  obtain ⟨-, -, -, -, -, -, -, -, hsummary, hclass, -, -, hinit⟩ := readsBack_of_inWords
  have hcounts : StatusCounts.zero.InWords := ⟨by decide, by decide, by decide⟩
  have hentries : ∀ e ∈ quotedSummary.summary.perNamespace.entries, e.2 = .zero := by decide +kernel
  have hwords : quotedSummary.summary.InWords :=
    ⟨by decide, hcounts, by decide, by decide, by decide, by decide,
      fun e he => hentries e he ▸ hcounts⟩
  have hstatus : splitStatus.InWords := ⟨by decide, by decide⟩
  refine ⟨hwords, hsummary _ hwords _ (.inl rfl), hsummary _ hwords _ (.inr rfl), hstatus, ?_, ?_⟩
  · rw [Ne, hclass _ hstatus _ (.inr rfl)]
    decide +kernel
  · have hok : (runOn freshMachine
        (CommandLine.initProject ⟨"."⟩ (some "\"heap\""))).1.toOption.isSome = true := by
      decide +kernel
    rcases hrun : runOn freshMachine (CommandLine.initProject ⟨"."⟩ (some "\"heap\"")) with
      ⟨_ | lines, machine'⟩
    · rw [hrun] at hok
      simp [Except.toOption] at hok
    · exact ⟨lines, machine', rfl, hinit _ _ _ _ _ hrun⟩

end DecompTracker
