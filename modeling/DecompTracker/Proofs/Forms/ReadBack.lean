import DecompTracker.Forms.Project
import DecompTracker.Proofs.Json.Form

/-! Values that are read back from their JSON texts. What is made of texts, paths and machine words
comes back as it was. A qualified name comes back as the name in its joined text, and so do the
statuses, functions and overrides that hold one. -/
namespace DecompTracker

open Json Text

/-! Words and names -/

theorem readsAs_path (p : Path) : (toJson p).ReadsAs p := ⟨.text p.text, rfl⟩

theorem readsAs_evidence (e : Evidence) : (toJson e).ReadsAs e := by
  cases e <;> exact ⟨.text _, rfl⟩

theorem readsAs_statusKind (k : StatusKind) : (toJson k).ReadsAs k := by
  cases k <;> exact ⟨.text _, rfl⟩

theorem readsAs_hint (h : Hint) : (toJson h).ReadsAs h := by
  cases h <;> exact ⟨.text _, rfl⟩

theorem readsAs_parse_joined (name : QualifiedName) :
    (toJson name).ReadsAs (QualifiedName.parse name.joined) := ⟨.text name.joined, rfl⟩

/-! Functions -/

structure FunctionEntry.InWords (f : FunctionEntry) : Prop where
  address : f.address ≤ maxWord
  size : f.size ≤ maxWord

structure FunctionInfo.InWords (f : FunctionInfo) : Prop where
  address : f.address ≤ maxWord
  size : f.size ≤ maxWord

theorem readsAs_functionEntry {f : FunctionEntry} (h : f.InWords) : (toJson f).ReadsAs f := by
  have haddress := readsAs_word h.address
  have hevidence := readsAs_evidence f.evidence
  have hsize := readsAs_word h.size
  have hsymbol := readsAs_text f.symbol
  apply readsAs_members (fun _ => rfl)
  · decide
  · exact .refl _
  · simp [haddress.plain, hevidence.plain, hsize.plain, hsymbol.plain]
  · simp [Record.required, haddress.read, hevidence.read, hsize.read, hsymbol.read]

theorem readsAs_functionInfo {f : FunctionInfo} (h : f.InWords) :
    (toJson f).ReadsAs { f with name := QualifiedName.parse f.name.joined } := by
  have haddress := readsAs_word h.address
  have hevidence := readsAs_evidence f.evidence
  have hsize := readsAs_word h.size
  have hname := readsAs_parse_joined f.name
  apply readsAs_members (fun _ => rfl)
  · decide
  · exact .refl _
  · simp [haddress.plain, hevidence.plain, hsize.plain, hname.plain]
  · simp [Record.required, haddress.read, hevidence.read, hsize.read, hname.read]

/-! Classes -/

structure ClassStatus.InWords (c : ClassStatus) : Prop where
  methodCount : c.methodCount ≤ maxWord
  totalSize : c.totalSize ≤ maxWord

theorem readsAs_classStatus {c : ClassStatus} (h : c.InWords) :
    (toJson c).ReadsAs { c with name := QualifiedName.parse c.name.joined } := by
  have hname := readsAs_parse_joined c.name
  have hstatus := readsAs_statusKind c.status
  have hmethods := readsAs_word h.methodCount
  have hsize := readsAs_word h.totalSize
  apply readsAs_members (fun _ => rfl)
  · decide
  · exact .refl _
  · simp [hname.plain, hstatus.plain, hmethods.plain, hsize.plain]
  · simp [Record.required, hname.read, hstatus.read, hmethods.read, hsize.read]

theorem readsAs_statusOverride (o : StatusOverride) :
    (toJson o).ReadsAs { o with name := QualifiedName.parse o.name.joined } := by
  have hname := readsAs_parse_joined o.name
  have hhint := readsAs_hint o.hint
  apply readsAs_members (fun _ => rfl)
  · decide
  · exact .refl _
  · simp [hname.plain, hhint.plain]
  · simp [Record.required, hname.read, hhint.read]

/-! Summaries -/

structure StatusCounts.InWords (n : StatusCounts) : Prop where
  undecompiled : n.undecompiled ≤ maxWord
  partly : n.partly ≤ maxWord
  decompiled : n.decompiled ≤ maxWord

structure Summary.InWords (s : Summary) : Prop where
  classes : s.classes ≤ maxWord
  counts : s.counts.InWords
  methods : s.methods ≤ maxWord
  totalSize : s.totalSize ≤ maxWord
  functions : s.functions ≤ maxWord
  overrides : s.overrides ≤ maxWord
  perNamespace : ∀ e ∈ s.perNamespace.entries, e.2.InWords

theorem readsAs_statusCounts {n : StatusCounts} (h : n.InWords) : (toJson n).ReadsAs n := by
  have hundecompiled := readsAs_word h.undecompiled
  have hpartly := readsAs_word h.partly
  have hdecompiled := readsAs_word h.decompiled
  apply readsAs_members (fun _ => rfl)
  · decide
  · exact .refl _
  · simp [hundecompiled.plain, hpartly.plain, hdecompiled.plain]
  · simp [Record.required, hundecompiled.read, hpartly.read, hdecompiled.read]

theorem readsAs_summary {s : Summary} (h : s.InWords) : (toJson s).ReadsAs s := by
  have hclasses := readsAs_word h.classes
  have hcounts := readsAs_statusCounts h.counts
  have hmethods := readsAs_word h.methods
  have hsize := readsAs_word h.totalSize
  have hfunctions := readsAs_word h.functions
  have hoverrides := readsAs_word h.overrides
  have hnamespaces := readsAs_map fun e he => readsAs_statusCounts (h.perNamespace e he)
  apply readsAs_members (fun _ => rfl)
  · decide
  · exact .refl _
  · simp [hclasses.plain, hcounts.plain, hmethods.plain, hsize.plain, hfunctions.plain,
      hoverrides.plain, hnamespaces.plain]
  · simp [Record.required, hclasses.read, hcounts.read, hmethods.read, hsize.read,
      hfunctions.read, hoverrides.read, hnamespaces.read]

/-! Projects -/

open Project

theorem readsAs_texts (texts : List String) : (toJson texts).ReadsAs texts :=
  readsAs_list fun s _ => readsAs_text s

theorem readsAs_namespaceFilter (f : NamespaceFilter) : (toJson f).ReadsAs f := by
  have hnames := readsAs_texts f.namespaces.toList
  have hset : NamespaceFilter.ofList f.namespaces.toList = f :=
    congrArg NamespaceFilter.mk (SortedSet.ext_mem fun _ => SortedSet.mem_toList_ofList)
  apply readsAs_members (fun _ => rfl)
  · decide
  · exact .refl _
  · simp [hnames.plain]
  · simp [Record.required, hnames.read, hset]

theorem readsAs_inputPaths (p : InputPaths) : (toJson p).ReadsAs p := by
  have hclasses := readsAs_path p.classes
  have hfunctions := readsAs_path p.functions
  have hoverrides := readsAs_path p.overrides
  apply readsAs_members (fun _ => rfl)
  · decide
  · exact .refl _
  · simp [hclasses.plain, hfunctions.plain, hoverrides.plain]
  · simp [Record.required, hclasses.read, hfunctions.read, hoverrides.read]

theorem readsAs_outputPaths (p : OutputPaths) : (toJson p).ReadsAs p := by
  have htree := readsAs_path p.tree
  have hgraph := readsAs_path p.graph
  have hsummary := readsAs_path p.summary
  apply readsAs_members (fun _ => rfl)
  · decide
  · exact .refl _
  · simp [htree.plain, hgraph.plain, hsummary.plain]
  · simp [Record.required, htree.read, hgraph.read, hsummary.read]

/-- A description that is not written is read as none. -/
theorem readsAs_config (c : Config) : (toJson c).ReadsAs c := by
  have hname := readsAs_text c.name
  have hversion := readsAs_text c.version
  have hnamespaces := readsAs_texts c.namespaces
  have hinputs := readsAs_inputPaths c.inputs
  have houtputs := readsAs_outputPaths c.outputs
  obtain ⟨name, description?, version, namespaces, inputs, outputs⟩ := c
  cases description? with
  | none =>
    apply readsAs_members (fun _ => rfl)
    · decide
    · exact .cons_cons _ (.cons _ (.refl _))
    · simp [hname.plain, hversion.plain, hnamespaces.plain, hinputs.plain, houtputs.plain]
    · simp [Record.required, Record.optional, Record.nullable, hname.read,
        hversion.read, hnamespaces.read, hinputs.read, houtputs.read]
  | some text =>
    have htext := readsAs_text text
    have hfilled : toJson text = .string (.text text) := rfl
    apply readsAs_members (fun _ => rfl)
    · decide
    · exact .refl _
    · simp [hname.plain, htext.plain, hversion.plain, hnamespaces.plain, hinputs.plain,
        houtputs.plain]
    · rw [hfilled] at htext
      simp [Record.required, Record.optional, Record.nullable, hname.read, hfilled,
        htext.read, hversion.read, hnamespaces.read, hinputs.read, houtputs.read]

theorem readsAs_inputHashes (h : InputHashes) : (toJson h).ReadsAs h := by
  have hclasses := readsAs_text h.classes
  have hfunctions := readsAs_text h.functions
  have hoverrides := readsAs_list fun (e : String × String) (_ : e ∈ h.overrides) =>
    readsAs_pair (readsAs_text e.1) (readsAs_text e.2)
  apply readsAs_members (fun _ => rfl)
  · decide
  · exact .refl _
  · simp [hclasses.plain, hfunctions.plain, hoverrides.plain]
  · simp [Record.required, Record.optional, hclasses.read, hfunctions.read,
      hoverrides.read]

theorem readsAs_summaryFile {s : SummaryFile} (h : s.summary.InWords) : (toJson s).ReadsAs s := by
  have hproject := readsAs_text s.project
  have hversion := readsAs_text s.toolVersion
  have hinputs := readsAs_inputHashes s.inputs
  have hsummary := readsAs_summary h
  apply readsAs_members (fun _ => rfl)
  · decide
  · exact .refl _
  · simp [hproject.plain, hversion.plain, hinputs.plain, hsummary.plain]
  · simp [Record.required, hproject.read, hversion.read, hinputs.read, hsummary.read]

end DecompTracker
