import DecompTracker.Proofs.Report.Parts

/-! Names outside the recognised namespaces. Whatever stands in a class map beyond the recognised
classes and the recognised names that they refer to has no influence on a report. Leaving out the
other names that a recognised class refers to does not show at all. -/
namespace DecompTracker

open Hierarchy

/-- Two class maps have the same recognised classes, and each of these refers to the same recognised
names. -/
structure NamespaceFilter.Agree (f : NamespaceFilter) (classes classes' : DependencyMap) :
    Prop where
  keys : ∀ name, f.accepts name → (name ∈ classes.keys ↔ name ∈ classes'.keys)
  targets : ∀ name targets targets', f.accepts name → classes.get? name = some targets →
    classes'.get? name = some targets' →
      ∀ target, f.accepts target → (target ∈ targets.toList ↔ target ∈ targets'.toList)

/-- Agreement is a matter of the entries of both maps. -/
theorem NamespaceFilter.agree_iff {f : NamespaceFilter} {classes classes' : DependencyMap} :
    f.Agree classes classes' ↔
      (∀ name ∈ classes.keys, f.accepts name → name ∈ classes'.keys) ∧
      (∀ name ∈ classes'.keys, f.accepts name → name ∈ classes.keys) ∧
      ∀ e ∈ classes.entries, ∀ e' ∈ classes'.entries, e.1 = e'.1 ∧ f.accepts e.1 →
        (∀ target ∈ e.2.toList, f.accepts target → target ∈ e'.2.toList) ∧
        ∀ target ∈ e'.2.toList, f.accepts target → target ∈ e.2.toList := by
  simp only [← SortedMap.get?_eq_some_iff, Prod.forall]
  constructor
  · intro h
    refine ⟨fun name hn ha => (h.keys name ha).mp hn, fun name hn ha => (h.keys name ha).mpr hn, ?_⟩
    rintro name targets he name' targets' he' ⟨rfl, ha⟩
    have ht := h.targets name targets targets' ha he he'
    exact ⟨fun target hm hta => (ht target hta).mp hm, fun target hm hta => (ht target hta).mpr hm⟩
  · rintro ⟨hforth, hback, htargets⟩
    refine ⟨fun name ha => ⟨fun hn => hforth name hn ha, fun hn => hback name hn ha⟩, ?_⟩
    intro name targets targets' ha he he' target hta
    obtain ⟨ht, ht'⟩ := htargets name targets he name targets' he' ⟨rfl, ha⟩
    exact ⟨fun hm => ht target hm hta, fun hm => ht' target hm hta⟩

instance (f : NamespaceFilter) (classes classes' : DependencyMap) :
    Decidable (f.Agree classes classes') :=
  decidable_of_iff' _ NamespaceFilter.agree_iff

theorem filterClasses_eq_of_agree {filter : NamespaceFilter} {classes classes' : DependencyMap}
    (h : filter.Agree classes classes') :
    filterClasses classes filter = filterClasses classes' filter := by
  refine SortedMap.ext_get? fun name => ?_
  rw [get?_filterClasses, get?_filterClasses]
  by_cases ha : filter.accepts name
  · have hkeys := h.keys name ha
    rw [if_pos ha, if_pos ha]
    rw [SortedMap.mem_keys_iff, SortedMap.mem_keys_iff] at hkeys
    cases ht : classes.get? name with
    | none =>
      cases ht' : classes'.get? name with
      | none => rfl
      | some targets' => simp [ht, ht'] at hkeys
    | some targets =>
      cases ht' : classes'.get? name with
      | none => simp [ht, ht'] at hkeys
      | some targets' =>
        refine congrArg some (SortedSet.ext_mem fun target => ?_)
        have hiff := h.targets name targets targets' ha ht ht' target
        simp only [SortedSet.toList_filter, List.mem_filter, Bool.and_eq_true]
        constructor
        · rintro ⟨hm, hta, hne⟩
          exact ⟨(hiff hta).mp hm, hta, hne⟩
        · rintro ⟨hm, hta, hne⟩
          exact ⟨(hiff hta).mpr hm, hta, hne⟩
  · rw [if_neg ha, if_neg ha]

/-! Names that recognised classes refer to -/

theorem accepts_ofList_nil (name : QualifiedName) : (NamespaceFilter.ofList []).accepts name := rfl

section onlyKeys

variable (s : Snapshot) (filter : NamespaceFilter)

/-- The same snapshot with the recognised classes alone, each with all the names it refers to. -/
def Snapshot.onlyRecognised : Snapshot := { s with classes := s.classes.filterKeys filter.accepts }

theorem Snapshot.keys_kept_onlyRecognised :
    ((s.onlyRecognised filter).kept (.ofList [])).keys = (s.kept filter).keys := by
  simp [kept, keys_filterClasses, onlyRecognised, accepts_ofList_nil]

theorem Snapshot.statuses_onlyRecognised :
    (s.onlyRecognised filter).statuses (.ofList []) = s.statuses filter :=
  classifyAll_congr s.overrides (s.keys_kept_onlyRecognised filter) fun _ => rfl

/-- A name that is not recognised is no class of the report, so a reference to it is dropped. -/
theorem Snapshot.knownTargets_onlyRecognised {c : ClassStatus} (hc : c ∈ s.statuses filter) :
    knownTargets (s.statuses filter) ((s.onlyRecognised filter).kept (.ofList [])) c.name =
      knownTargets (s.statuses filter) (s.kept filter) c.name := by
  obtain ⟨-, ha⟩ := mem_names_iff.mp (List.mem_map_of_mem hc)
  have hget : (s.onlyRecognised filter).classes.get? c.name = s.classes.get? c.name := by
    rw [onlyRecognised, SortedMap.get?_filterKeys, if_pos ha]
  rw [knownTargets, knownTargets, kept, kept, get?_filterClasses, get?_filterClasses, hget,
    if_pos ha, if_pos (accepts_ofList_nil c.name)]
  cases s.classes.get? c.name with
  | none => rfl
  | some targets =>
    simp only [Option.map_some, Option.elim_some, SortedSet.toList_filter, List.filter_filter,
      accepts_ofList_nil, Bool.true_and]
    refine List.filter_congr fun target _ => ?_
    by_cases hmem : target ∈ (s.statuses filter).map ClassStatus.name
    · simp [(mem_names_iff.mp hmem).2]
    · simp [hmem]

theorem Report.build_onlyRecognised (format : ReportFormat) :
    Report.build (s.onlyRecognised filter) (.ofList []) format = Report.build s filter format := by
  have hstatuses := s.statuses_onlyRecognised filter
  refine build_congr hstatuses (fun c hc => ?_) rfl rfl
  rw [hstatuses] at hc ⊢
  exact s.knownTargets_onlyRecognised filter hc

end onlyKeys

theorem Report.build_eq_of_kept_eq {s s' : Snapshot} {filter : NamespaceFilter}
    {format : ReportFormat} (hkept : s.kept filter = s'.kept filter)
    (hfunctions : s.functions = s'.functions) (hoverrides : s.overrides = s'.overrides) :
    Report.build s filter format = Report.build s' filter format := by
  have hstatuses : s.statuses filter = s'.statuses filter := by
    rw [Snapshot.statuses, Snapshot.statuses, hkept, hfunctions, hoverrides]
  refine build_congr hstatuses (fun c _ => ?_) (by rw [hfunctions]) (by rw [hoverrides])
  rw [hkept]

/-- A report shows nothing of what its filter leaves out. -/
theorem Report.build_eq_of_agree (filter : NamespaceFilter) (functions : List FunctionEntry)
    (overrides : OverrideTable) (format : ReportFormat) :
    (∀ classes classes', filter.Agree classes classes' →
      Report.build ⟨classes, functions, overrides⟩ filter format =
        Report.build ⟨classes', functions, overrides⟩ filter format) ∧
    ∀ classes,
      Report.build ⟨classes.filterKeys filter.accepts, functions, overrides⟩ (.ofList []) format =
        Report.build ⟨classes, functions, overrides⟩ filter format := by
  refine ⟨fun classes classes' h => ?_, fun classes => ?_⟩
  · exact build_eq_of_kept_eq (filterClasses_eq_of_agree h) rfl rfl
  · exact build_onlyRecognised ⟨classes, functions, overrides⟩ filter format

/-- An unrecognised class with a recognised target, and an unrecognised target of a recognised class
that is written like a recognised name. -/
def mixedClasses : DependencyMap :=
  .ofList [(.parse "ksys::Actor", .ofList [.parse "ksys::Heap", .ofSegments ["ksys::Heap"],
      .parse "sead::Heap"]),
    (.parse "ksys::Heap", .ofList []), (.parse "sead::Heap", .ofList [.parse "ksys::Actor"]),
    (.ofSegments ["ksys::Heap"], .ofList [.parse "ksys::Actor"])]

def recognisedClasses : DependencyMap :=
  .ofList [(.parse "ksys::Actor", .ofList [.parse "ksys::Heap"]), (.parse "ksys::Heap", .ofList [])]

theorem Report.build_eq_of_agree_mixedClasses :
    (NamespaceFilter.ofList ["ksys"]).Agree mixedClasses recognisedClasses ∧
      Report.build ⟨mixedClasses, [], .empty⟩ (.ofList ["ksys"]) .both =
        Report.build ⟨recognisedClasses, [], .empty⟩ (.ofList ["ksys"]) .both := by
  have h : (NamespaceFilter.ofList ["ksys"]).Agree mixedClasses recognisedClasses := by decide
  exact ⟨h, (Report.build_eq_of_agree (.ofList ["ksys"]) [] .empty .both).1 _ _ h⟩

end DecompTracker
