import DecompTracker.Proofs.Hierarchy.Coherence
import DecompTracker.Proofs.Hierarchy.Frame

/-! What adding a class does to a draft and what it leaves alone. Nodes, index, child lists, edges and
conflicts only grow, and new nodes stand for leads of the class. Details go to the node of the class
and to no other one; a class that conflicts brings none at all. -/
namespace DecompTracker.Hierarchy.Draft

variable {d d' d'' : Draft} {name : QualifiedName} {c : ClassStatus}

/-- The details of a node, when it is there and has some. -/
def detailsAt (d : Draft) (id : NodeId) : Option ClassDetails := d.nodes[id]?.bind Node.details

/-- Every node is still there under its number. -/
def NodesStay (d d' : Draft) : Prop :=
  ∀ (id : Nat) (n : Node), d.nodes[id]? = some n → ∃ n', d'.nodes[id]? = some n' ∧ n.Becomes n'

/-- The draft `d'` is what adding the class `c` may make of `d`. -/
structure Adds (c : ClassStatus) (d d' : Draft) : Prop where
  root : d'.root? = d.root?
  nodes : d.NodesStay d'
  fresh : ∀ (id : Nat) (n : Node), d.nodes.size ≤ id → d'.nodes[id]? = some n →
    n.path.IsLeadOf c.name
  index : ∀ written id, d.lookup? written = some id → d'.lookup? written = some id
  edges : ∃ new : List Edge, d'.edges.toList = d.edges.toList ++ new ∧
    ∀ e ∈ new, e.kind = .contains
  conflicts : ∃ new : List Conflict, d'.conflicts.toList = d.conflicts.toList ++ new ∧
    new.length ≤ 1
  /-- A new conflict comes without new details. -/
  refused : d'.conflicts ≠ d.conflicts → ∀ id, d'.detailsAt id = d.detailsAt id
  /-- Without a conflict one node stands for the class, and it alone gets details. The root of a
  draft, which stands for no scope, may bear the name of a class. -/
  described : d'.conflicts = d.conflicts → ∃ id n, d'.Inner id n ∧ n.path = c.name ∧
    d'.lookup? c.name.joined = some id ∧ (∀ j m, d'.Inner j m → m.path = c.name → j = id) ∧
    n.details = some c.toClassDetails ∧ ∀ j, j ≠ id → d'.detailsAt j = d.detailsAt j
  scopes : ∀ (id : Nat) (n : Node), d'.nodes[id]? = some n → n.path ≠ c.name →
    n.details = d.detailsAt id

/-! Entering the leads of a name -/

/-- New nodes stand for leads of a name, and no details are new. -/
structure Enters (name : QualifiedName) (d d' : Draft) : Prop where
  keeps : d.Keeps d'
  fresh : ∀ (id : Nat) (n : Node), d.nodes.size ≤ id → d'.nodes[id]? = some n →
    n.path.IsLeadOf name
  details : ∀ id, d'.detailsAt id = d.detailsAt id

theorem Enters.of_nodes_eq (hk : d.Keeps d') (hn : d'.nodes = d.nodes) : Enters name d d' where
  keeps := hk
  fresh id n hle h := by
    have hlt := (Array.getElem?_eq_some_iff.mp (hn ▸ h)).1
    omega
  details id := by rw [detailsAt, hn, detailsAt]

theorem Enters.refl (name : QualifiedName) (d : Draft) : Enters name d d :=
  .of_nodes_eq (.refl d) rfl

theorem Enters.trans (h : Enters name d d') (h' : Enters name d' d'') : Enters name d d'' where
  keeps := h.keeps.trans h'.keeps
  fresh id n hle hn := by
    cases hm : d'.nodes[id]? with
    | none => exact h'.fresh id n (Array.getElem?_eq_none_iff.mp hm) hn
    | some m =>
      rw [(h'.keeps.becomes hm hn).path]
      exact h.fresh id m hle hm
  details id := (h'.details id).trans (h.details id)

theorem enters_create (d : Draft) (parent? : Option Nat) (origin : QualifiedName)
    {path : QualifiedName} (h : path.IsLeadOf name) :
    Enters name d (d.create parent? origin path) where
  keeps := keeps_create d parent? origin path
  fresh id n hle hn := by
    rw [getElem?_create, Option.map_eq_some_iff] at hn
    obtain ⟨m, hm, rfl⟩ := hn
    rw [Array.getElem?_push] at hm
    have hpath : m.path = path := by
      split at hm
      · rw [← Option.some.inj hm]
      · have := (Array.getElem?_eq_some_iff.mp hm).1
        omega
    split <;> exact hpath ▸ h
  details id := by
    have hbind (n : Node) : Node.details
        (if parent? = some id then { n with children := n.children ++ [d.nodes.size] } else n) =
          n.details := by
      split <;> rfl
    rw [detailsAt, detailsAt, getElem?_create, Option.bind_map, Array.getElem?_push]
    simp only [Function.comp_def, hbind]
    split
    · rename_i hid
      simp [hid]
    · rfl

theorem enters_descend (d : Draft) (name : QualifiedName) (parent? : Option Nat)
    {ps : List QualifiedName} (hps : ∀ p ∈ ps, p.IsLeadOf name) :
    Enters name d (d.descend name parent? ps).1 := by
  induction ps generalizing d parent? with
  | nil => exact .refl name d
  | cons p ps ih =>
    obtain ⟨hp, hps⟩ := List.forall_mem_cons.mp hps
    rw [descend]
    split
    · split
      · exact ih d _ hps
      · exact .of_nodes_eq (keeps_addConflict d _) rfl
    · exact (enters_create d parent? name hp).trans (ih _ _ hps)

/-! The two ways to add a class -/

/-- Either a lead of the class conflicts, and the way down ends there, or the way down ends at the
node of the class, which is then described. -/
theorem addClass_cases (hd : d.WellFormed) (c : ClassStatus) :
    ∃ entered : Draft, Enters c.name d entered ∧ entered.WellFormed ∧
      ((d.addClass c = entered ∧ entered.conflicts ≠ d.conflicts) ∨
        ∃ id, entered.Above (some id) (some c.name) ∧ d.addClass c = entered.describe id c ∧
          entered.conflicts = d.conflicts) := by
  have henters := enters_descend d c.name d.root? (fun p hp => QualifiedName.mem_leads.mp hp)
  have hf := descend_follows hd c.name (QualifiedName.descent_leads c.name)
    (show d.Above d.root? none from rfl)
  rw [QualifiedName.getLast?_leads, Option.some_or] at hf
  have hconflicts := Outline.conflicts_enter d.outline c.name c.name.leads
  rw [← hf.grown.outline] at hconflicts
  refine ⟨_, henters, hf.grown.wellFormed, ?_⟩
  unfold addClass
  rcases hconflicts with ⟨hfound, hsame⟩ | ⟨hstopped, x, hnew⟩
  · have ha := hf.found hfound
    cases hr : d.descend c.name d.root? c.name.leads with
    | mk entered id? =>
      rw [hr] at ha hsame
      obtain ⟨id, rfl⟩ : ∃ id, id? = some id := ⟨_, ha.choose_spec.1⟩
      exact .inr ⟨id, ha, rfl, Array.toList_inj.mp hsame⟩
  · have hnone := hf.stopped hstopped
    cases hr : d.descend c.name d.root? c.name.leads with
    | mk entered id? =>
      rw [hr] at hnone hnew
      obtain rfl : id? = none := hnone
      refine .inl ⟨rfl, fun heq => ?_⟩
      have hsame : entered.conflicts = d.conflicts := heq
      simp [outline, hsame] at hnew

/-! Details -/

theorem detailsAt_setDetails (d : Draft) (id : Nat) (details : ClassDetails) (j : Nat) :
    (d.setDetails id details).detailsAt j =
      if j = id ∧ j < d.nodes.size then some details else d.detailsAt j := by
  rw [detailsAt, getElem?_setDetails, detailsAt, Option.bind_map]
  by_cases hid : j = id
  · subst hid
    cases hn : d.nodes[j]? with
    | none => simp [Nat.not_lt.mpr (Array.getElem?_eq_none_iff.mp hn)]
    | some n => simp [(Array.getElem?_eq_some_iff.mp hn).1]
  · simp [hid, Ne.symm hid]

/-- Describing a node gives it the details of the class, or meets a conflict and gives none. -/
theorem describe_cases (d : Draft) {id : Nat} (c : ClassStatus) (hid : id < d.nodes.size) :
    ((d.describe id c).conflicts = d.conflicts ∧
      (d.describe id c).detailsAt id = some c.toClassDetails ∧
      ∀ j, j ≠ id → (d.describe id c).detailsAt j = d.detailsAt j) ∨
    ((d.describe id c).conflicts ≠ d.conflicts ∧
      ∀ j, (d.describe id c).detailsAt j = d.detailsAt j) := by
  have hset : (d.setDetails id c.toClassDetails).detailsAt id = some c.toClassDetails := by
    rw [detailsAt_setDetails, if_pos ⟨rfl, hid⟩]
  unfold describe
  split
  · refine .inl ⟨rfl, hset, fun j hj => ?_⟩
    exact (detailsAt_setDetails d id c.toClassDetails j).trans (if_neg fun h => hj h.1)
  · rename_i details hdetails
    split
    · rename_i heq
      exact .inl ⟨rfl, heq ▸ hdetails, fun _ _ => rfl⟩
    · refine .inr ⟨fun h => ?_, fun _ => rfl⟩
      have := congrArg Array.size h
      simp [addConflict] at this

theorem size_describe (d : Draft) (id : Nat) (c : ClassStatus) :
    (d.describe id c).nodes.size = d.nodes.size := by
  unfold describe
  split
  · exact Array.size_modify
  · split <;> rfl

theorem Inner.becomes {id : Nat} {n : Node} (h : d.Inner id n) (hk : d.Keeps d')
    (hroot : d'.root? = d.root?) : ∃ n', d'.Inner id n' ∧ n.Becomes n' := by
  obtain ⟨n', hn', hb⟩ := hk.nodes id n h.1
  exact ⟨n', ⟨hn', hroot ▸ h.2⟩, hb⟩

/-- A class brings details to its own node when it does not conflict, and to none otherwise. -/
theorem detailsAt_addClass (hd : d.WellFormed) (c : ClassStatus) :
    ((d.addClass c).conflicts = d.conflicts ∧ ∃ id n, (d.addClass c).Inner id n ∧
      n.path = c.name ∧ n.details = some c.toClassDetails ∧
      ∀ j, j ≠ id → (d.addClass c).detailsAt j = d.detailsAt j) ∨
    ((d.addClass c).conflicts ≠ d.conflicts ∧
      ∀ j, (d.addClass c).detailsAt j = d.detailsAt j) := by
  obtain ⟨entered, henters, hentered, ⟨heq, hne⟩ | ⟨id, ha, heq, hsame⟩⟩ := addClass_cases hd c
  · rw [heq]
    exact .inr ⟨hne, henters.details⟩
  · obtain ⟨n, hn, hpath⟩ := hentered.inner_of_above ha
    have hid := (Array.getElem?_eq_some_iff.mp hn.1).1
    rw [heq, ← hsame]
    rcases describe_cases entered c hid with ⟨hc, hself, hother⟩ | ⟨hc, hall⟩
    · obtain ⟨n', hn', hb⟩ :=
        hn.becomes (keeps_describe entered id c) (grown_describe hentered ha).root?_eq
      refine .inl ⟨hc, id, n', hn', hb.path.trans hpath, ?_, fun j hj => ?_⟩
      · rwa [detailsAt, hn'.1, Option.bind_some] at hself
      · exact (hother j hj).trans (henters.details j)
    · exact .inr ⟨hc, fun j => (hall j).trans (henters.details j)⟩

theorem isLeadOf_of_fresh (hd : d.WellFormed) {id : Nat} {n : Node} (hle : d.nodes.size ≤ id)
    (hn : (d.addClass c).nodes[id]? = some n) : n.path.IsLeadOf c.name := by
  obtain ⟨entered, henters, -, ⟨heq, -⟩ | ⟨described, -, heq, -⟩⟩ := addClass_cases hd c
  · exact henters.fresh id n hle (heq ▸ hn)
  · rw [heq] at hn
    have hlt := (Array.getElem?_eq_some_iff.mp hn).1
    rw [size_describe] at hlt
    have hm := Array.getElem?_eq_getElem hlt
    rw [((keeps_describe entered described c).becomes hm hn).path]
    exact henters.fresh id _ hle hm

theorem lookup?_of_keeps (hd : d.WellFormed) (hd' : d'.WellFormed) (hk : d.Keeps d')
    (hroot : d'.root? = d.root?) {written : String} {id : Nat} (h : d.lookup? written = some id) :
    d'.lookup? written = some id := by
  obtain ⟨n, hn, rfl⟩ := hd.lookup?_eq_some_iff.mp h
  obtain ⟨n', hn', hb⟩ := hn.becomes hk hroot
  exact hd'.lookup?_eq_some_iff.mpr ⟨n', hn', hb.name⟩

theorem adds_addClass (hd : d.WellFormed) (c : ClassStatus) : Adds c d (d.addClass c) := by
  have hg := grown_addClass hd c
  have hkeeps := keeps_addClass d c
  have hdetails := detailsAt_addClass hd c
  refine ⟨hg.root?_eq, hkeeps.nodes, fun id n => isLeadOf_of_fresh hd,
    fun written id => lookup?_of_keeps hd hg.wellFormed hkeeps hg.root?_eq, hkeeps.edges,
    ?conflicts, ?refused, ?described, ?scopes⟩
  case conflicts =>
    have hconflicts : (d.addClass c).conflicts.toList = (d.outline.addClass c).conflicts :=
      congrArg Outline.conflicts hg.outline
    rw [hconflicts]
    rcases Outline.conflicts_addClass d.outline c with h | ⟨x, h⟩
    · exact ⟨[], h.trans (List.append_nil _).symm, by simp⟩
    · exact ⟨[x], h, by simp⟩
  case refused =>
    intro hne
    rcases hdetails with ⟨heq, -⟩ | ⟨-, hall⟩
    · exact absurd heq hne
    · exact hall
  case described =>
    intro heq
    rcases hdetails with ⟨-, id, n, hn, hpath, hself, hother⟩ | ⟨hne, -⟩
    · refine ⟨id, n, hn, hpath, ?_, fun j m hm hp => ?_, hself, hother⟩
      · exact hg.wellFormed.lookup?_eq_some_iff.mpr
          ⟨n, hn, (hg.wellFormed.named id n hn.1).trans (congrArg _ hpath)⟩
      · have hj := above_of_inner hm
        have hid := above_of_inner hn
        rw [hp] at hj
        rw [hpath] at hid
        exact hg.wellFormed.id_eq_of_above hj hid
    · exact absurd heq hne
  case scopes =>
    intro j m hm hp
    have hat : (d.addClass c).detailsAt j = m.details := by
      rw [detailsAt, hm, Option.bind_some]
    rw [← hat]
    rcases hdetails with ⟨-, id, n, hn, hpath, -, hother⟩ | ⟨-, hall⟩
    · refine hother j fun heq => hp ?_
      subst heq
      obtain rfl := Option.some.inj (hm.symm.trans hn.1)
      exact hpath
    · exact hall j

/-! Runs -/

theorem nodesStay_apply (d : Draft) (call : Call) : d.NodesStay (d.apply call) := by
  cases call with
  | addClass c => exact (d.keeps_addClass c).nodes
  | addDependencies name targets =>
    obtain ⟨es, -, heq⟩ := d.addDependencies_eq name targets
    rw [apply, heq]
    exact (Keeps.refl d).nodes

theorem NodesStay.trans (h : d.NodesStay d') (h' : d'.NodesStay d'') : d.NodesStay d'' := by
  intro id n hn
  obtain ⟨n', hn', hb⟩ := h id n hn
  obtain ⟨n'', hn'', hb'⟩ := h' id n' hn'
  exact ⟨n'', hn'', hb.trans hb'⟩

theorem nodesStay_run (d : Draft) (calls : List Call) : d.NodesStay (d.run calls) := by
  induction calls using List.reverseRecOn with
  | nil => exact (Keeps.refl d).nodes
  | append_singleton calls call ih =>
    rw [run_concat]
    exact ih.trans (nodesStay_apply _ call)

/-- What adding a class does to a draft at any time while it is built, and that what a node is and the
details it once has are never changed by any later call. -/
theorem run_addClass_effect (rooted : Bool) (calls : List Call) (c : ClassStatus) :
    Adds c ((start rooted).run calls) (((start rooted).run calls).addClass c) ∧
      ∀ more : List Call, (((start rooted).run calls).addClass c).NodesStay
        ((((start rooted).run calls).addClass c).run more) :=
  ⟨adds_addClass (grown_run rooted calls).wellFormed c, nodesStay_run _⟩

end DecompTracker.Hierarchy.Draft
