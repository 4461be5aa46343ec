import DecompTracker.Proofs.Hierarchy.Compatible

/-! What an outline of classes holds. Adding a class that agrees with the outline enters its missing
leads and sets its details; every other class leaves a conflict. Along a whole list this makes the
conflicts empty exactly when the classes are compatible in pairs. -/
namespace DecompTracker.Hierarchy.Outline

theorem extend_proper {o : Outline} (ho : o.Proper) {name : QualifiedName} (ha : o.Agrees name) :
    (o.extend name).Proper := by
  have he := ho.enter name (QualifiedName.descent_leads name) (by simp)
  rwa [enter_of_agree name.nodup_leads (fun _ => QualifiedName.mem_leads.mp) ha] at he

theorem mem_entries_extend {o : Outline} {name : QualifiedName} {e : Entry} :
    e ∈ (o.extend name).entries ↔
      e ∈ o.entries ∨ (e.path.IsLeadOf name ∧ e.path ∉ o.paths ∧ e = ⟨e.path, name, none⟩) := by
  simp only [extend, List.mem_append, List.mem_map, List.mem_filter, decide_eq_true_eq,
    QualifiedName.mem_leads]
  refine or_congr_right ⟨?_, ?_⟩
  · rintro ⟨p, ⟨hp, hn⟩, rfl⟩
    exact ⟨hp, hn, rfl⟩
  · rintro ⟨hp, hn, he⟩
    exact ⟨e.path, ⟨hp, hn⟩, he.symm⟩

/-- Details that are new or the same are simply set. -/
theorem describe_eq_setDetails {o : Outline} (ho : o.Proper) {c : ClassStatus}
    (hm : c.name ∈ o.paths)
    (hd : ∀ e ∈ o.entries, e.path = c.name → ∀ x, e.details = some x → x = c.toClassDetails) :
    o.describe c = o.setDetails c := by
  obtain ⟨e, he, hp⟩ := mem_paths.mp hm
  have hf : o.find? c.name.joined = some e := ho.find?_eq_some_iff.mpr ⟨he, by rw [hp]⟩
  unfold describe
  rw [hf, Option.bind_some]
  split
  · rfl
  · rename_i x hx
    obtain rfl := hd e he hp x hx
    have hself : o.entries = (o.setDetails c).entries := by
      refine (List.map_id _).symm.trans (List.map_congr_left fun f hf => ?_)
      split
      · rename_i hfp
        obtain rfl := ho.entry_eq hf he (by rw [hfp, hp])
        cases f
        simp_all
      · rfl
    rw [if_pos rfl]
    exact congrArg (fun es => (⟨es, o.conflicts⟩ : Outline)) hself

theorem conflicts_describe_of_ne {o : Outline} (ho : o.Proper) {c : ClassStatus} {e : Entry}
    (he : e ∈ o.entries) (hp : e.path = c.name) {x : ClassDetails} (hx : e.details = some x)
    (hne : x ≠ c.toClassDetails) : (o.describe c).conflicts ≠ o.conflicts := by
  have hf : o.find? c.name.joined = some e := ho.find?_eq_some_iff.mpr ⟨he, by rw [hp]⟩
  simp [describe, hf, hx, hne, report]

/-- Exactly the leads of the classes are entered, and exactly the classes have details. -/
structure Holds (o : Outline) (classes : List ClassStatus) : Prop where
  paths : o.paths = allLeads classes
  details : ∀ e ∈ o.entries, ∀ x,
    e.details = some x ↔ ∃ c ∈ classes, c.name = e.path ∧ c.toClassDetails = x

theorem holds_empty : empty.Holds [] := ⟨rfl, by simp [empty]⟩

/-- A class fits when its leads agree with the paths and its details with those of its namesakes. -/
def Fits (o : Outline) (classes : List ClassStatus) (c : ClassStatus) : Prop :=
  o.Agrees c.name ∧ ∀ x ∈ classes, x.name = c.name → x.toClassDetails = c.toClassDetails

theorem Holds.fits_iff {o : Outline} {classes : List ClassStatus} (hh : o.Holds classes)
    (c : ClassStatus) : o.Fits classes c ↔ ∀ x ∈ classes, ¬ x.Conflicts c := by
  constructor
  · rintro ⟨ha, hd⟩ x hx (⟨p, q, hp, hq, hj, hne⟩ | ⟨hn, hne⟩)
    · have hpo : p ∈ o.paths := hh.paths ▸ mem_allLeads.mpr ⟨x, hx, hp⟩
      exact hne (ha q (QualifiedName.mem_leads.mpr hq) p hpo hj)
    · exact hne (hd x hx hn)
  · intro h
    refine ⟨fun p hp q hq hj => ?_, fun x hx hn => ?_⟩
    · by_contra hne
      obtain ⟨x, hx, hqx⟩ := mem_allLeads.mp (hh.paths ▸ hq)
      exact h x hx (.inl ⟨q, p, hqx, QualifiedName.mem_leads.mp hp, hj, hne⟩)
    · by_contra hne
      exact h x hx (.inr ⟨hn, hne⟩)

theorem Holds.extend_details {o : Outline} {classes : List ClassStatus} (hh : o.Holds classes)
    (name : QualifiedName) : ∀ e ∈ (o.extend name).entries, ∀ x,
      e.details = some x ↔ ∃ c ∈ classes, c.name = e.path ∧ c.toClassDetails = x := by
  intro e he x
  rcases mem_entries_extend.mp he with he | ⟨-, hn, he⟩
  · exact hh.details e he x
  · rw [he]
    simp only [reduceCtorEq, false_iff, not_exists, not_and]
    intro c hc hp
    rw [hh.paths] at hn
    exact absurd (mem_allLeads.mpr ⟨c, hc, hp ▸ QualifiedName.IsLeadOf.refl _⟩) hn

/-- Adding a class that fits. -/
theorem addClass_of_fits {o : Outline} (ho : o.Proper) {classes : List ClassStatus}
    (hh : o.Holds classes) {c : ClassStatus} (hc : o.Fits classes c) :
    o.addClass c = (o.extend c.name).setDetails c := by
  unfold addClass
  rw [enter_of_agree c.name.nodup_leads (fun _ => QualifiedName.mem_leads.mp) hc.1]
  refine describe_eq_setDetails (extend_proper ho hc.1) (name_mem_paths_extend o c.name) ?_
  intro e he hp x hx
  obtain ⟨y, hy, hn, rfl⟩ := (hh.extend_details c.name e he x).mp hx
  exact hc.2 y hy (hn.trans hp)

theorem Holds.addClass {o : Outline} (ho : o.Proper) {classes : List ClassStatus}
    (hh : o.Holds classes) {c : ClassStatus} (hc : o.Fits classes c) :
    (o.addClass c).Holds (classes ++ [c]) := by
  rw [addClass_of_fits ho hh hc]
  refine ⟨?_, fun e he x => ?_⟩
  · rw [paths_setDetails, paths_extend, hh.paths, allLeads_concat]
  · obtain ⟨f, hf, rfl⟩ := List.mem_map.mp he
    have hd := hh.extend_details c.name f hf x
    split
    · rename_i hp
      simp only [List.mem_append, List.mem_singleton, Option.some.injEq]
      constructor
      · rintro rfl
        exact ⟨c, .inr rfl, hp.symm, rfl⟩
      · rintro ⟨y, hy | rfl, hn, rfl⟩
        · exact (hc.2 y hy (hn.trans hp)).symm
        · rfl
    · rename_i hp
      rw [hd]
      constructor
      · rintro ⟨y, hy, h⟩
        exact ⟨y, List.mem_append_left _ hy, h⟩
      · rintro ⟨y, hy, hn, h⟩
        rcases List.mem_append.mp hy with hy | hy
        · exact ⟨y, hy, hn, h⟩
        · obtain rfl := List.mem_singleton.mp hy
          exact absurd hn.symm hp

/-- A class that does not fit leaves a conflict. -/
theorem conflicts_addClass_ne {o : Outline} (ho : o.Proper) {classes : List ClassStatus}
    (hh : o.Holds classes) {c : ClassStatus} (hc : ¬ o.Fits classes c) :
    (o.addClass c).conflicts ≠ o.conflicts := by
  by_cases ha : o.Agrees c.name
  · -- All leads are entered, so an earlier namesake has other details.
    obtain ⟨y, hy, hn, hne⟩ : ∃ y ∈ classes, y.name = c.name ∧
        y.toClassDetails ≠ c.toClassDetails := by
      simpa [Fits, ha] using hc
    obtain ⟨e, he, hp⟩ := mem_paths.mp (name_mem_paths_extend o c.name)
    have hx := (hh.extend_details c.name e he _).mpr ⟨y, hy, hn.trans hp.symm, rfl⟩
    unfold addClass
    rw [enter_of_agree c.name.nodup_leads (fun _ => QualifiedName.mem_leads.mp) ha]
    exact conflicts_describe_of_ne (extend_proper ho ha) he hp hx hne
  · -- Entering stops at a lead that is written like another path.
    have hr : (o.enter c.name c.name.leads).2 = false := by
      by_contra h
      exact ha (agree_of_enter ho.distinct (by simpa using h))
    rcases conflicts_enter o c.name c.name.leads with ⟨h, -⟩ | ⟨-, x, hx⟩
    · simp [hr] at h
    · unfold addClass
      split <;> rename_i o' he <;> simp_all

/-- Along a list, the conflicts stay empty exactly as long as the classes are compatible, and the
outline then holds them. -/
theorem conflicts_ofClasses (classes : List ClassStatus) :
    ((ofClasses classes).conflicts = [] ↔ classes.Pairwise fun x y => ¬ x.Conflicts y) ∧
      ((ofClasses classes).conflicts = [] → (ofClasses classes).Holds classes) := by
  induction classes using List.reverseRecOn with
  | nil => exact ⟨by simp [ofClasses, empty], fun _ => holds_empty⟩
  | append_singleton classes c ih =>
    obtain ⟨hiff, hholds⟩ := ih
    have hp := proper_ofClasses classes
    have hstep (h : (ofClasses classes).conflicts = []) :
        ((ofClasses classes).addClass c).conflicts = [] ↔
          (ofClasses classes).Fits classes c := by
      refine ⟨fun hn => ?_, fun hc => ?_⟩
      · by_contra hc
        exact conflicts_addClass_ne hp (hholds h) hc (hn.trans h.symm)
      · rw [addClass_of_fits hp (hholds h) hc]
        exact h
    rw [ofClasses_concat, List.pairwise_append]
    simp only [List.pairwise_singleton, true_and, List.mem_singleton, forall_eq]
    refine ⟨⟨fun h => ?_, fun h => ?_⟩, fun h => ?_⟩
    · have h0 := conflicts_eq_nil_of_addClass h
      exact ⟨hiff.mp h0, ((hholds h0).fits_iff c).mp ((hstep h0).mp h)⟩
    · obtain ⟨hpw, hc⟩ := h
      have h0 := hiff.mpr hpw
      exact (hstep h0).mpr (((hholds h0).fits_iff c).mpr hc)
    · have h0 := conflicts_eq_nil_of_addClass h
      exact (hholds h0).addClass hp ((hstep h0).mp h)

/-! Reading an outline by written forms -/

variable {o : Outline} {classes : List ClassStatus}

theorem Holds.mem_paths (hh : o.Holds classes) {c : ClassStatus} (hc : c ∈ classes) :
    c.name ∈ o.paths :=
  hh.paths ▸ mem_allLeads.mpr ⟨c, hc, .refl _⟩

theorem Holds.map_joined_allLeads (ho : o.Proper) (hh : o.Holds classes) :
    (allLeads classes).map QualifiedName.joined = writtenLeads classes := by
  have hinj : ∀ p ∈ classes.flatMap fun c => c.name.leads,
      ∀ q ∈ classes.flatMap fun c => c.name.leads, p.joined = q.joined → p = q := by
    intro p hp q hq hj
    rw [← List.mem_eraseDups, ← allLeads, ← hh.paths] at hp hq
    exact ho.path_eq hp hq hj
  rw [allLeads, ← eraseDups_map hinj, List.map_flatMap, writtenLeads]
  simp only [QualifiedName.map_joined_leads]

/-- A class is found by its written name. -/
theorem Holds.details_iff_joined (ho : o.Proper) (hh : o.Holds classes) {e : Entry}
    (he : e ∈ o.entries) (x : ClassDetails) :
    e.details = some x ↔
      ∃ c ∈ classes, c.name.joined = e.path.joined ∧ c.toClassDetails = x := by
  rw [hh.details e he x]
  constructor
  · intro h
    obtain ⟨c, hc, hn, hx⟩ := h
    exact ⟨c, hc, by rw [hn], hx⟩
  · intro h
    obtain ⟨c, hc, hj, hx⟩ := h
    have hep : e.path ∈ o.paths := Outline.mem_paths.mpr ⟨e, he, rfl⟩
    exact ⟨c, hc, ho.path_eq (hh.mem_paths hc) hep hj, hx⟩

/-- The entries with details are those of the classes. -/
theorem Holds.classPaths_perm (ho : o.Proper) (hh : o.Holds classes) :
    ((o.entries.filter fun e => e.details.isSome).map Entry.path).Perm
      (classes.map ClassStatus.name).eraseDups := by
  have hnodup : ((o.entries.filter fun e => e.details.isSome).map Entry.path).Nodup :=
    ho.nodup_paths.sublist (List.filter_sublist.map _)
  refine (List.perm_ext_iff_of_nodup hnodup (nodup_eraseDups _)).mpr fun p => ?_
  simp only [List.mem_map, List.mem_filter, List.mem_eraseDups, Option.isSome_iff_exists]
  constructor
  · intro h
    obtain ⟨e, ⟨he, x, hx⟩, rfl⟩ := h
    obtain ⟨c, hc, hn, -⟩ := (hh.details e he x).mp hx
    exact ⟨c, hc, hn⟩
  · intro h
    obtain ⟨c, hc, rfl⟩ := h
    obtain ⟨e, he, hp⟩ := Outline.mem_paths.mp (hh.mem_paths hc)
    exact ⟨e, ⟨he, _, (hh.details e he _).mpr ⟨c, hc, hp.symm, rfl⟩⟩, hp⟩

/-- As many entries have details as there are names of classes. -/
theorem Holds.countP_details (ho : o.Proper) (hh : o.Holds classes) :
    o.entries.countP (fun e => e.details.isSome) =
      (classes.map ClassStatus.name).eraseDups.length := by
  rw [List.countP_eq_length_filter, ← (hh.classPaths_perm ho).length_eq, List.length_map]

end DecompTracker.Hierarchy.Outline
