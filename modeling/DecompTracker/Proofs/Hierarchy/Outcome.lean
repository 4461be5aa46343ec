import DecompTracker.Proofs.Hierarchy.Compatible

/-! What the addition of a class comes to. Afterwards the class is either present with its details,
or refused with a conflict that names the entry in its way. Outlines only grow, so the outcome stays
as it was, and adding the class once more at most repeats its conflict. -/
namespace DecompTracker.Hierarchy.Outline

/-! Growth -/

/-- Entries keep their path and origin, and their details once they have some. -/
def Extends (o o' : Outline) : Prop :=
  ∀ e ∈ o.entries, ∃ e' ∈ o'.entries, e'.path = e.path ∧ e'.origin = e.origin ∧
    ∀ x, e.details = some x → e'.details = some x

theorem extends_refl (o : Outline) : o.Extends o := fun e he => ⟨e, he, rfl, rfl, fun _ hx => hx⟩

theorem Extends.trans {o o' o'' : Outline} (h : o.Extends o') (h' : o'.Extends o'') :
    o.Extends o'' := by
  intro e he
  obtain ⟨e', he', hp, ho, hd⟩ := h e he
  obtain ⟨e'', he'', hp', ho', hd'⟩ := h' e' he'
  exact ⟨e'', he'', hp'.trans hp, ho'.trans ho, fun x hx => hd' x (hd x hx)⟩

theorem Extends.mem_paths {o o' : Outline} (h : o.Extends o') {p : QualifiedName}
    (hp : p ∈ o.paths) : p ∈ o'.paths := by
  obtain ⟨e, he, rfl⟩ := Outline.mem_paths.mp hp
  obtain ⟨e', he', hp', -⟩ := h e he
  exact Outline.mem_paths.mpr ⟨e', he', hp'⟩

theorem extends_push (o : Outline) (p origin : QualifiedName) : o.Extends (o.push p origin) :=
  fun e he => ⟨e, List.mem_append_left _ he, rfl, rfl, fun _ hx => hx⟩

theorem extends_enter (o : Outline) (name : QualifiedName) (ps : List QualifiedName) :
    o.Extends (o.enter name ps).1 := by
  induction ps generalizing o with
  | nil => exact extends_refl o
  | cons p ps ih =>
    rw [enter]
    split
    · split
      · exact ih o
      · exact extends_refl o
    · exact (extends_push o p name).trans (ih _)

/-- Only an entry without details gets some. -/
theorem extends_describe {o : Outline} (ho : o.Proper) (c : ClassStatus) :
    o.Extends (o.describe c) := by
  unfold describe
  split
  · rename_i hnone
    intro e he
    refine ⟨_, List.mem_map_of_mem he, ?_⟩
    split
    · rename_i hp
      have hf : o.find? c.name.joined = some e := ho.find?_eq_some_iff.mpr ⟨he, by rw [hp]⟩
      rw [hf, Option.bind_some] at hnone
      simp [hnone]
    · simp
  · split
    · exact extends_refl o
    · exact extends_refl o

theorem extends_addClass {o : Outline} (ho : o.Proper) (c : ClassStatus) :
    o.Extends (o.addClass c) := by
  have hext := extends_enter o c.name c.name.leads
  have hproper := ho.enter c.name (QualifiedName.descent_leads c.name) (by simp)
  unfold addClass
  split <;> rename_i o' hr <;> rw [hr] at hext hproper
  · exact hext.trans (extends_describe hproper c)
  · exact hext

/-! Outcomes -/

/-- An entry in the way of a lead is written like it and has another path. -/
structure Blocks (o : Outline) (p : QualifiedName) (e : Entry) : Prop where
  mem : e ∈ o.entries
  joined : e.path.joined = p.joined
  ne : e.path ≠ p

/-- Where a class stands: it is present, or its first blocked lead or its other details are in the
way. -/
inductive Outcome (o : Outline) (c : ClassStatus) : Option Conflict → Prop
  | present {e : Entry} (he : e ∈ o.entries) (hp : e.path = c.name)
      (hd : e.details = some c.toClassDetails) : Outcome o c none
  | blocked {entered left : List QualifiedName} {p : QualifiedName} {e : Entry}
      (hl : c.name.leads = entered ++ p :: left) (hn : ∀ q ∈ entered, q ∈ o.paths)
      (hb : o.Blocks p e) : Outcome o c (some (.sharedLead p.joined e.origin c.name))
  | unequal {e : Entry} {x : ClassDetails} (he : e ∈ o.entries) (hp : e.path = c.name)
      (hd : e.details = some x) (hne : x ≠ c.toClassDetails) :
      Outcome o c (some (.unequalDetails c.name x.status c.status))

theorem Outcome.mono {o o' : Outline} {c : ClassStatus} {v : Option Conflict}
    (h : o.Outcome c v) (hext : o.Extends o') : o'.Outcome c v := by
  cases h with
  | present he hp hd =>
    obtain ⟨e', he', hp', -, hd'⟩ := hext _ he
    exact .present he' (hp'.trans hp) (hd' _ hd)
  | blocked hl hn hb =>
    obtain ⟨e', he', hp', ho', -⟩ := hext _ hb.mem
    have hb' : o'.Blocks _ e' := ⟨he', hp' ▸ hb.joined, hp' ▸ hb.ne⟩
    rw [← ho']
    exact .blocked hl (fun q hq => hext.mem_paths (hn q hq)) hb'
  | unequal he hp hd hne =>
    obtain ⟨e', he', hp', -, hd'⟩ := hext _ he
    exact .unequal he' (hp'.trans hp) (hd' _ hd) hne

/-! Adding a class leads to an outcome -/

/-- How entering some leads of a name ended, and the conflicts it left. -/
inductive Entering (o : Outline) (name : QualifiedName) (ps : List QualifiedName) :
    Bool → List Conflict → Prop
  | whole (hn : ∀ p ∈ ps, p ∈ o.paths) : Entering o name ps true []
  | stopped {entered left : List QualifiedName} {p : QualifiedName} {e : Entry}
      (hl : ps = entered ++ p :: left) (hn : ∀ q ∈ entered, q ∈ o.paths) (hb : o.Blocks p e) :
      Entering o name ps false [.sharedLead p.joined e.origin name]

theorem Entering.cons {o : Outline} {name p : QualifiedName} {ps : List QualifiedName}
    {whole : Bool} {new : List Conflict} (h : o.Entering name ps whole new) (hp : p ∈ o.paths) :
    o.Entering name (p :: ps) whole new := by
  cases h with
  | whole hn => exact .whole (List.forall_mem_cons.mpr ⟨hp, hn⟩)
  | stopped hl hn hb =>
    exact .stopped (by rw [hl]; rfl) (List.forall_mem_cons.mpr ⟨hp, hn⟩) hb

theorem exists_entering (o : Outline) (name : QualifiedName) (ps : List QualifiedName) :
    ∃ new, (o.enter name ps).1.Entering name ps (o.enter name ps).2 new ∧
      (o.enter name ps).1.conflicts = o.conflicts ++ new := by
  induction ps generalizing o with
  | nil => exact ⟨[], .whole (by simp), by simp [enter]⟩
  | cons p ps ih =>
    rw [enter]
    cases hf : o.find? p.joined with
    | none =>
      obtain ⟨new, hnew, hc⟩ := ih (o.push p name)
      have hp : p ∈ (o.push p name).paths := by simp
      exact ⟨new, hnew.cons ((extends_enter _ name ps).mem_paths hp), hc⟩
    | some e =>
      obtain ⟨he, hj⟩ := mem_of_find?_eq_some hf
      by_cases hp : e.path = p
      · obtain ⟨new, hnew, hc⟩ := ih o
        have hpo : p ∈ o.paths := mem_paths.mpr ⟨e, he, hp⟩
        simp only [hp, if_true]
        exact ⟨new, hnew.cons ((extends_enter o name ps).mem_paths hpo), hc⟩
      · simp only [hp, if_false]
        have hl : p :: ps = [] ++ p :: ps := rfl
        exact ⟨_, .stopped hl (by simp) ⟨he, hj, hp⟩, rfl⟩

theorem exists_outcome_describe {o : Outline} (ho : o.Proper) {c : ClassStatus}
    (hm : c.name ∈ o.paths) :
    ∃ v, (o.describe c).Outcome c v ∧ (o.describe c).conflicts = o.conflicts ++ v.toList := by
  obtain ⟨e, he, hp⟩ := mem_paths.mp hm
  have hf : o.find? c.name.joined = some e := ho.find?_eq_some_iff.mpr ⟨he, by rw [hp]⟩
  unfold describe
  rw [hf, Option.bind_some]
  cases hd : e.details with
  | none =>
    have hset : ({ e with details := some c.toClassDetails } : Entry) ∈
        (o.setDetails c).entries := List.mem_map.mpr ⟨e, he, if_pos hp⟩
    exact ⟨none, .present hset hp rfl, by simp [setDetails]⟩
  | some x =>
    by_cases hx : x = c.toClassDetails
    · simp only [hx, if_true]
      exact ⟨none, .present he hp (hx ▸ hd), by simp⟩
    · simp only [hx, if_false]
      exact ⟨_, .unequal he hp hd hx, rfl⟩

theorem exists_outcome {o : Outline} (ho : o.Proper) (c : ClassStatus) :
    ∃ v, (o.addClass c).Outcome c v ∧ (o.addClass c).conflicts = o.conflicts ++ v.toList := by
  have hproper := ho.enter c.name (QualifiedName.descent_leads c.name) (by simp)
  obtain ⟨new, hnew, hc⟩ := exists_entering o c.name c.name.leads
  unfold addClass
  split <;> rename_i o' hr <;> rw [hr] at hproper hnew hc
  · cases hnew with
    | whole hn =>
      have hm := hn c.name (QualifiedName.mem_leads.mpr (.refl c.name))
      obtain ⟨v, hv, hcv⟩ := exists_outcome_describe hproper hm
      exact ⟨v, hv, by rw [hcv, hc, List.append_nil]⟩
  · cases hnew with
    | stopped hl hn hb => exact ⟨_, .blocked hl hn hb, hc⟩

/-! Adding a class again -/

theorem Proper.enter_append {o : Outline} (ho : o.Proper) (name : QualifiedName)
    {entered : List QualifiedName} (hn : ∀ q ∈ entered, q ∈ o.paths) (ps : List QualifiedName) :
    o.enter name (entered ++ ps) = o.enter name ps := by
  induction entered with
  | nil => rfl
  | cons q entered ih =>
    obtain ⟨hq, hn⟩ := List.forall_mem_cons.mp hn
    obtain ⟨e, he, hp⟩ := mem_paths.mp hq
    have hf : o.find? q.joined = some e := ho.find?_eq_some_iff.mpr ⟨he, by rw [hp]⟩
    rw [List.cons_append, Outline.enter, hf]
    simp only [hp, if_true]
    exact ih hn

theorem Proper.addClass_of_mem_paths {o : Outline} (ho : o.Proper) {c : ClassStatus}
    (hm : c.name ∈ o.paths) : o.addClass c = o.describe c := by
  have hleads : ∀ q ∈ c.name.leads, q ∈ o.paths := fun q hq =>
    ho.lead_mem hm (QualifiedName.mem_leads.mp hq)
  have hent := ho.enter_append c.name hleads []
  rw [List.append_nil, Outline.enter] at hent
  rw [Outline.addClass, hent]

/-- A class with a known outcome changes nothing when it is added; its conflict, if any, is reported
once more. -/
theorem Proper.addClass_of_outcome {o : Outline} (ho : o.Proper) {c : ClassStatus}
    {v : Option Conflict} (h : o.Outcome c v) :
    o.addClass c = { o with conflicts := o.conflicts ++ v.toList } := by
  cases h with
  | present he hp hd =>
    have hm : c.name ∈ o.paths := mem_paths.mpr ⟨_, he, hp⟩
    have hf := ho.find?_eq_some_iff.mpr ⟨he, congrArg QualifiedName.joined hp⟩
    simp [ho.addClass_of_mem_paths hm, describe, hf, hd]
  | blocked hl hn hb =>
    have hf := ho.find?_eq_some_iff.mpr ⟨hb.mem, hb.joined⟩
    rw [Outline.addClass, hl, ho.enter_append c.name hn, Outline.enter, hf]
    simp [hb.ne, report]
  | unequal he hp hd hne =>
    have hm : c.name ∈ o.paths := mem_paths.mpr ⟨_, he, hp⟩
    have hf := ho.find?_eq_some_iff.mpr ⟨he, congrArg QualifiedName.joined hp⟩
    simp [ho.addClass_of_mem_paths hm, describe, hf, hd, hne, report]

/-! Runs -/

theorem outcome_concat (classes : List ClassStatus) (c : ClassStatus) :
    ∃ v, (ofClasses (classes ++ [c])).Outcome c v ∧
      (ofClasses (classes ++ [c])).conflicts = (ofClasses classes).conflicts ++ v.toList := by
  rw [ofClasses_concat]
  exact exists_outcome (proper_ofClasses classes) c

theorem extends_concat (classes : List ClassStatus) (c : ClassStatus) :
    (ofClasses classes).Extends (ofClasses (classes ++ [c])) := by
  rw [ofClasses_concat]
  exact extends_addClass (proper_ofClasses classes) c

/-- A run reports the conflict of each class that it refused. -/
theorem exists_outcome_of_mem {classes : List ClassStatus} {c : ClassStatus} (hc : c ∈ classes) :
    ∃ v, (ofClasses classes).Outcome c v ∧ ∀ x ∈ v, x ∈ (ofClasses classes).conflicts := by
  induction classes using List.reverseRecOn with
  | nil => simp at hc
  | append_singleton classes d ih =>
    obtain ⟨w, hw, hconf⟩ := outcome_concat classes d
    rcases List.mem_append.mp hc with hc | hc
    · obtain ⟨v, hv, hx⟩ := ih hc
      refine ⟨v, hv.mono (extends_concat classes d), fun x hxv => ?_⟩
      rw [hconf]
      exact List.mem_append_left _ (hx x hxv)
    · obtain rfl := List.mem_singleton.mp hc
      refine ⟨w, hw, fun x hxw => ?_⟩
      rw [hconf]
      exact List.mem_append_right _ (Option.mem_toList.mpr hxw)

end DecompTracker.Hierarchy.Outline
