import DecompTracker.Proofs.Hierarchy.Growth

/-! Adding classes to drafts. A well-formed draft stays so, keeps its form, and its outline changes
as outlines of classes do. Hence drafts with and without a root have one outline of the same
classes. -/
namespace DecompTracker.Hierarchy.Draft

variable {d : Draft}

/-- A later state of a draft, which has the given outline. -/
structure Grown (d d' : Draft) (o : Outline) : Prop where
  wellFormed : d'.WellFormed
  rooted : d'.rooted = d.rooted
  outline : d'.outline = o

theorem Grown.trans {d' d'' : Draft} {o o' : Outline} (h : Grown d d' o) (h' : Grown d' d'' o') :
    Grown d d'' o' :=
  ⟨h'.wellFormed, h'.rooted.trans h.rooted, h'.outline⟩

theorem Grown.root?_eq {d' : Draft} {o : Outline} (h : Grown d d' o) : d'.root? = d.root? := by
  rw [root?, h.rooted, root?]

theorem Grown.entries_eq {d' : Draft} {o : Outline} (h : Grown d d' o) : d'.entries = o.entries :=
  congrArg Outline.entries h.outline

theorem grown_addConflict (hd : d.WellFormed) (c : Conflict) :
    Grown d (d.addConflict c) (d.outline.report c) where
  wellFormed := ⟨⟨hd.root, hd.named, hd.index, hd.children, hd.edges⟩,
    hd.proper.of_paths_eq rfl⟩
  rooted := rfl
  outline := by
    simp only [outline, addConflict, Outline.report, Array.toList_push]
    rfl

theorem grown_create (hd : d.WellFormed) {parent? : Option Nat} {path : QualifiedName}
    (origin : QualifiedName) (hnew : d.outline.find? path.joined = none)
    (hs : ∀ s, path.scope? = some s → s ∈ d.paths) (ha : d.Above parent? path.scope?) :
    Grown d (d.create parent? origin path) (d.outline.push path origin) :=
  ⟨hd.create origin hnew hs ha, rooted_create _ _ _ _, outline_create hd.toLinked _ _ _⟩

theorem above_create (hd : d.Linked) (parent? : Option Nat) (origin path : QualifiedName) :
    (d.create parent? origin path).Above (some d.nodes.size) (some path) :=
  ⟨d.paths.length, by rw [base_create, hd.size_eq], by simp [paths_create hd]⟩

/-! Walking down the leads of a name -/

/-- Walking down and entering in an outline end alike; the walk ends at the node of `s?`. -/
structure Follows (d : Draft) (r : Draft × Option Nat) (e : Outline × Bool)
    (s? : Option QualifiedName) : Prop where
  grown : Grown d r.1 e.1
  found : e.2 = true → r.1.Above r.2 s?
  stopped : e.2 = false → r.2 = none

theorem descend_follows (hd : d.WellFormed) (name : QualifiedName) {s? : Option QualifiedName}
    {parent? : Option Nat} {ps : List QualifiedName} (hps : QualifiedName.Descent s? ps)
    (ha : d.Above parent? s?) :
    Follows d (d.descend name parent? ps) (d.outline.enter name ps) (ps.getLast?.or s?) := by
  induction ps generalizing d s? parent? with
  | nil => exact ⟨⟨hd, rfl, rfl⟩, fun _ => ha, by simp [Outline.enter]⟩
  | cons p ps ih =>
    obtain ⟨hp, hps⟩ := hps
    have hlast : (p :: ps).getLast?.or s? = ps.getLast?.or (some p) := by
      rw [List.getLast?_cons]
      cases ps.getLast? <;> rfl
    rw [hlast, descend, Outline.enter]
    cases hpr : d.present? p.joined with
    | none =>
      have hf := hd.present?_eq_none_iff.mp hpr
      have hscope : ∀ s, p.scope? = some s → s ∈ d.paths := by
        rintro s hs
        obtain rfl := hp.symm.trans hs
        exact ha.mem_paths
      have hg := grown_create hd name hf hscope (hp ▸ ha)
      have hrest := ih hg.wellFormed hps (above_create hd.toLinked parent? name p)
      rw [hg.outline] at hrest
      simp only [hf]
      exact ⟨hg.trans hrest.grown, hrest.found, hrest.stopped⟩
    | some e =>
      obtain ⟨id, n⟩ := e
      obtain ⟨hf, habove⟩ := hd.of_present?_eq_some hpr
      simp only [hf]
      by_cases hn : n.path = p
      · have hne : n.entry.path = p := hn
        rw [if_pos hn, if_pos hne]
        exact ih hd hps (hn ▸ habove)
      · have hne : ¬ n.entry.path = p := hn
        rw [if_neg hn, if_neg hne]
        exact ⟨grown_addConflict hd _, by simp, by simp⟩

/-! Setting details -/

/-- A draft with details given to one node. -/
def setDetails (d : Draft) (id : Nat) (details : ClassDetails) : Draft :=
  { d with nodes := d.nodes.modify id fun n => { n with details := some details } }

theorem getElem?_setDetails (d : Draft) (id : Nat) (details : ClassDetails) (j : Nat) :
    (d.setDetails id details).nodes[j]? =
      (d.nodes[j]?).map fun n => if id = j then { n with details := some details } else n := by
  simp only [setDetails, Array.getElem?_modify]
  split <;> simp_all

theorem outline_setDetails (hd : d.WellFormed) {id : Nat} {c : ClassStatus}
    (ha : d.Above (some id) (some c.name)) :
    (d.setDetails id c.toClassDetails).outline = d.outline.setDetails c := by
  have hentries : (d.setDetails id c.toClassDetails).entries =
      (d.outline.setDetails c).entries := by
    refine List.ext_getElem? fun i => ?_
    simp only [getElem?_entries, Outline.setDetails, outline, List.getElem?_map, Option.map_map]
    rw [show (d.setDetails id c.toClassDetails).base = d.base from rfl, getElem?_setDetails,
      Option.map_map]
    refine Option.map_congr fun n hn => ?_
    have hiff := hd.above_iff ha hn
    rw [standsFor_eq_some_iff, Option.some.injEq] at hiff
    by_cases h : n.path = c.name
    · have hid : id = d.base + i := hiff.mpr ⟨Nat.le_add_right _ _, h⟩
      simp [Node.entry, h, hid]
    · have hid : ¬ id = d.base + i := fun he => h (hiff.mp he).2
      simp [Node.entry, h, hid]
  exact congrArg (fun es => (⟨es, d.conflicts.toList⟩ : Outline)) hentries

theorem grown_setDetails (hd : d.WellFormed) {id : Nat} {c : ClassStatus}
    (ha : d.Above (some id) (some c.name)) :
    Grown d (d.setDetails id c.toClassDetails) (d.outline.setDetails c) := by
  have houtline := outline_setDetails hd ha
  have hpaths : (d.setDetails id c.toClassDetails).paths = d.paths := by
    rw [paths, houtline, Outline.paths_setDetails]
  have hbase : (d.setDetails id c.toClassDetails).base = d.base := rfl
  refine ⟨⟨⟨fun hr => ?_, fun j n hn => ?_, ?_, fun j n hn => ?_, ?_⟩, ?_⟩, rfl, houtline⟩
  · -- The root is not the node of a class.
    obtain ⟨n, hn, he⟩ := hd.root hr
    have hid : id ≠ 0 := by
      obtain ⟨i, hi, -⟩ := ha
      have : d.base = 1 := if_pos hr
      have := Option.some.inj hi
      omega
    exact ⟨n, by rw [getElem?_setDetails, hn, Option.map_some, if_neg hid], he⟩
  · rw [getElem?_setDetails, Option.map_eq_some_iff] at hn
    obtain ⟨m, hm, rfl⟩ := hn
    have := hd.named j m hm
    split <;> exact this
  · rw [hbase, hpaths]
    exact hd.index
  · rw [getElem?_setDetails, Option.map_eq_some_iff] at hn
    obtain ⟨m, hm, rfl⟩ := hn
    rw [hbase, hpaths]
    have := hd.children j m hm
    split <;> exact this
  · rw [hbase, hpaths]
    exact hd.edges
  · exact hd.proper.of_paths_eq hpaths

theorem grown_describe (hd : d.WellFormed) {id : Nat} {c : ClassStatus}
    (ha : d.Above (some id) (some c.name)) :
    Grown d (d.describe id c) (d.outline.describe c) := by
  obtain ⟨n, hn, -, hfind⟩ := hd.find?_of_above ha
  rw [describe, Outline.describe, hn, hfind, Option.bind_some, Option.bind_some,
    show n.entry.details = n.details from rfl]
  cases n.details with
  | none => exact grown_setDetails hd ha
  | some details =>
    by_cases h : details = c.toClassDetails
    · simp only [h, if_true]
      exact ⟨hd, rfl, rfl⟩
    · simp only [h, if_false]
      exact grown_addConflict hd _

theorem grown_addClass (hd : d.WellFormed) (c : ClassStatus) :
    Grown d (d.addClass c) (d.outline.addClass c) := by
  have hf := descend_follows hd c.name (QualifiedName.descent_leads c.name)
    (show d.Above d.root? none from rfl)
  rw [QualifiedName.getLast?_leads, Option.some_or] at hf
  rw [addClass, Outline.addClass]
  cases he : d.outline.enter c.name c.name.leads with
  | mk o entered =>
    rw [he] at hf
    cases hr : d.descend c.name d.root? c.name.leads with
    | mk d' id? =>
      rw [hr] at hf
      cases entered with
      | true =>
        have ha : d'.Above id? (some c.name) := hf.found rfl
        obtain ⟨id, rfl⟩ : ∃ id, id? = some id := ⟨_, ha.choose_spec.1⟩
        have hg := grown_describe hf.grown.wellFormed ha
        rw [hf.grown.outline] at hg
        exact hf.grown.trans hg
      | false =>
        obtain rfl := hf.stopped rfl
        exact hf.grown

theorem grown_addClasses (hd : d.WellFormed) (classes : List ClassStatus) :
    Grown d (d.addClasses classes) (classes.foldl Outline.addClass d.outline) := by
  induction classes generalizing d with
  | nil => exact ⟨hd, rfl, rfl⟩
  | cons c classes ih =>
    have hg := grown_addClass hd c
    have hrest := ih hg.wellFormed
    rw [hg.outline] at hrest
    exact hg.trans hrest

end DecompTracker.Hierarchy.Draft
