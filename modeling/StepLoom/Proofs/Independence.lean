import StepLoom.Proofs.Compile.Naming
import StepLoom.Proofs.Outcome
import StepLoom.Proofs.Sharing

/-!
# Jobs are independent

Marks tell the mappings of a document apart, and an edit reaches whatever bears its mark. If no mark
stands twice in a document, none of its mappings stands at two places, and compiling a job does not
reach the table of setups. So the other jobs find the table as it was.

**Theorem (`jobs_independent`).** Whether a job compiles or not, its edits leave the table alone. If
the document compiles, and all of its pattern lists have different names, each job is what it
becomes in a document of its own.
-/

namespace StepLoom

open Job (Separate Around)
open Registry (NamesDiffer Plain)

namespace Workflow

/-- The sorted pattern lists of all jobs. -/
def patternLists (doc : Value) : List (List String) :=
  (jobs doc).flatMap fun f => Job.patternLists f.2

/-- A job and what becomes of it in a document of its own. -/
def Alone (table : Value) (f g : Scalar × Value) : Prop :=
  g.1 = f.1 ∧ ∃ edits, Job.outcome table f.2 = .ok (g.2, edits)

/-! ## The parts of a document -/

theorem marks_table_sublist {setup : Option Value} {ms : List Nat}
    (h : ∀ v, setup = some v → v.marks.Sublist ms) : (table setup).marks.Sublist ms := by
  unfold table
  cases hg : Value.given? setup with
  | none => exact List.nil_sublist ms
  | some v => exact h v (Option.filter_eq_some_iff.mp hg).1

variable {table job doc source : Value} {lists : List (List String)} {js : Fields} {log : List Edit}

/-- The table and the jobs have no mapping in common. -/
theorem nodup_parts (h : doc.marks.Nodup) (hsource : Value.given? (doc.part "jobs") = some source) :
    ((setups doc).marks ++ source.marks).Nodup := by
  have hjobs := (Option.filter_eq_some_iff.mp hsource).1
  obtain ⟨fields, hfields, hget⟩ := Option.bind_eq_some_iff.mp hjobs
  obtain ⟨mark, rfl⟩ := Value.eq_map_of_fields? h hfields
  have hnodup : (Value.marksOfFields fields).Nodup := h.sublist (List.sublist_append_right _ _)
  have hpart : (Value.map mark fields).part "setup" = Fields.get? "setup" fields := by
    rw [Value.part, hfields]
    rfl
  rw [setups, hpart]
  cases hsetup : Fields.get? "setup" fields with
  | none => exact hnodup.sublist (Value.marks_get? hget)
  | some t =>
    have hrest : Fields.get? "jobs" (Fields.erase "setup" fields) = some source :=
      (Fields.get?_erase_ne (by decide)).trans hget
    refine ((Value.perm_erase hsetup).nodup_iff.mpr hnodup).sublist
      (List.Sublist.append (marks_table_sublist fun v hv => ?_) (Value.marks_get? hrest))
    rw [Option.some.inj hv]

theorem separate_of_nodup (h : (table.marks ++ Value.marksOfFields js).Nodup) {f : Scalar × Value}
    (hf : f ∈ js) : Separate table f.2 := by
  obtain ⟨-, hjobs, hdisjoint⟩ := List.nodup_append.mp h
  rw [Value.marksOfFields_eq] at hjobs hdisjoint
  refine ⟨(List.nodup_flatMap.mp hjobs).1 f hf, fun m hm hmem => ?_⟩
  exact hdisjoint m hmem m (List.mem_flatMap.mpr ⟨f, hf, hm⟩) rfl

theorem jobs_eq_of_given (hsource : Value.given? (doc.part "jobs") = some source) :
    jobs doc = source.fields?.getD [] := by
  rw [jobs, hsource]

theorem mem_jobs (h : doc.marks.Nodup) {f : Scalar × Value} (hf : f ∈ jobs doc) :
    Separate (setups doc) f.2 := by
  cases hsource : Value.given? (doc.part "jobs") with
  | none =>
    rw [jobs, hsource] at hf
    cases hf
  | some source =>
    have hnodup := nodup_parts h hsource
    rw [jobs_eq_of_given hsource] at hf
    cases hfields : source.fields? with
    | none =>
      rw [hfields] at hf
      cases hf
    | some js =>
      rw [hfields] at hf
      obtain ⟨mark, rfl⟩ := Value.eq_map_of_fields? (List.nodup_append.mp hnodup).2.1 hfields
      refine separate_of_nodup (hnodup.sublist ?_) hf
      exact (List.sublist_append_right _ _).append_left _

/-! ## One job after another -/

/-- A separate job becomes the same from every registry in which names are free or in their own
hands. -/
theorem leads_compile (h : Separate table job) (hdiffer : NamesDiffer lists)
    (hsub : Job.patternLists job ⊆ lists) :
    Leads (Plain lists) (fun a r => (Job.outcome table job = .ok a ∧ a.1.Within (Around table job) ∧
      ∀ e ∈ a.2, e.mark ∈ job.marks) ∧ Plain lists r) (Job.compile table job) := by
  intro r hr
  obtain ⟨halike, hplain⟩ := h.compile_abreast hdiffer hsub r {} ⟨hr, Registry.plain_empty⟩
  have hensures := h.noted_compile.leads r trivial
  unfold Ensures at hensures ⊢
  generalize exec (Job.compile table job) r = p at halike hplain hensures ⊢
  obtain ⟨e | a, r'⟩ := p
  · trivial
  · exact ⟨⟨(alike_eq.mp halike).symm, hensures.1.1, hensures.1.2.marked⟩, hplain.1⟩

/-- **Each job is compiled as if it were alone**, from any table and jobs that the edits before do
not reach. -/
theorem leads_compileJobs (hdiffer : NamesDiffer lists)
    (hnodup : (table.marks ++ Value.marksOfFields js).Nodup)
    (hsub : ∀ f ∈ js, Job.patternLists f.2 ⊆ lists)
    (hlog : ∀ e ∈ log, e.mark ∉ table.marks ∧ e.mark ∉ Value.marksOfFields js) :
    Leads (Plain lists) (fun a r => (List.Forall₂ (Alone table) js a.1 ∧
      Fields.Within (fun m => m ∈ table.marks ∨ m ∈ Value.marksOfFields js) a.1 ∧
      ∀ e ∈ a.2, e.mark ∈ Value.marksOfFields js) ∧ Plain lists r) (compileJobs table js log) := by
  induction js generalizing log with
  | nil => exact leads_pure fun r hr => ⟨⟨.nil, Fields.within_nil, by simp⟩, hr⟩
  | cons f rest ih =>
    obtain ⟨id, job⟩ := f
    have hseparate : Separate table job := separate_of_nodup hnodup List.mem_cons_self
    simp only [Value.marksOfFields, List.mem_append, not_or] at hnodup hlog ⊢
    obtain ⟨-, hinner, houter⟩ := List.nodup_append.mp hnodup
    obtain ⟨-, -, hapart⟩ := List.nodup_append.mp hinner
    have hrest : (table.marks ++ Value.marksOfFields rest).Nodup :=
      hnodup.sublist ((List.sublist_append_right _ _).append_left _)
    rw [compileJobs, Value.applyAll_of_not_mem fun e he => (hlog e he).1,
      Value.applyAll_of_not_mem fun e he => (hlog e he).2.1]
    refine (leads_compile hseparate hdiffer (hsub _ List.mem_cons_self)).bind
      fun (job', edits) => .assuming fun ⟨halone, hwithin, hedits⟩ => ?_
    have hlog' : ∀ e ∈ log ++ edits,
        e.mark ∉ table.marks ∧ e.mark ∉ Value.marksOfFields rest := by
      intro e he
      rcases List.mem_append.mp he with he | he
      · exact ⟨(hlog e he).1, (hlog e he).2.2⟩
      · exact ⟨hseparate.outside _ (hedits e he), fun hmem => hapart _ (hedits e he) _ hmem rfl⟩
    refine (ih hrest (fun f hf => hsub f (List.mem_cons_of_mem _ hf)) hlog').bind
      fun (rest', more) => .assuming fun ⟨hall, hrest', hmore⟩ => leads_pure fun r hr => ?_
    -- Later edits leave the job alone.
    have hkeep : job'.applyAll more = job' := by
      refine Value.applyAll_of_not_mem fun e he hmem => ?_
      rcases hwithin _ hmem with hmem | hmem
      · exact hapart _ hmem _ (hmore e he) rfl
      · exact houter _ hmem _ (List.mem_append_right _ (hmore e he)) rfl
    dsimp only
    rw [hkeep]
    refine ⟨⟨.cons ⟨rfl, edits, halone⟩ hall, List.forall_mem_cons.mpr ⟨?_, ?_⟩, ?_⟩, hr⟩
    · exact hwithin.mono fun m hm => hm.elim (fun hm => Or.inr (Or.inl hm)) Or.inl
    · exact fun f hf => (hrest' f hf).mono fun m hm => hm.imp_right Or.inr
    · intro e he
      exact (List.mem_append.mp he).imp (hedits e) (hmore e)

/-! ## The document -/

/-- The jobs of a document with a mapping of jobs. -/
theorem jobs_put {mark : Option Nat} {fields js : Fields}
    (h : ∀ m, mark = some m → m ∉ Value.marksOfFields js) :
    jobs (.record (Fields.put "jobs" (.map mark js) fields)) = js := by
  have hpart : (Value.record (Fields.put "jobs" (.map mark js) fields)).part "jobs" =
      some (.map mark js) := Fields.get?_put_self
  have hfields : (Value.map mark js).fields? = some js := by
    cases mark with
    | none => rfl
    | some m => rw [Value.fields?, Value.unroll, Value.plugFields_of_not_mem js (h m rfl)]
  rw [jobs, hpart]
  cases js with
  | nil => rfl
  | cons f rest =>
    change ((Value.map mark (f :: rest)).fields?).getD [] = f :: rest
    rw [hfields]
    rfl

theorem leads_compileIn (h : doc.marks.Nodup) (hdiffer : NamesDiffer (patternLists doc)) :
    Leads (Plain (patternLists doc))
      (fun doc' _ => List.Forall₂ (Alone (setups doc)) (jobs doc) (jobs doc')) (compileIn doc) := by
  refine leads_liftM.bind fun taken => .assuming fun htake => ?_
  obtain ⟨setup, fields⟩ := taken
  have hsetup : setups doc = table setup := by rw [setups, Value.part_of_take htake]
  have hpart : doc.part "jobs" = Fields.get? "jobs" fields :=
    Value.part_of_take_ne htake (by decide)
  dsimp only
  cases hsource : Value.given? (Fields.get? "jobs" fields) with
  | none =>
    refine leads_pure fun r hr => ?_
    have hrest : (Value.record fields).part "jobs" = Fields.get? "jobs" fields := rfl
    rw [jobs, hpart, hsource, jobs, hrest, hsource]
    exact .nil
  | some source =>
    refine leads_liftM.bind fun js => .assuming fun hjs => ?_
    have hjobs := jobs_eq htake hsource hjs
    have hnodup := nodup_parts h (hpart ▸ hsource)
    obtain ⟨mark, rfl⟩ := Value.eq_map_of_fields? (List.nodup_append.mp hnodup).2.1
      (Value.fields?_of_fieldsOf hjs)
    obtain ⟨-, hinner, houter⟩ := List.nodup_append.mp hnodup
    obtain ⟨-, -, hapart⟩ := List.nodup_append.mp hinner
    have hrun : ((setups doc).marks ++ Value.marksOfFields js).Nodup :=
      hnodup.sublist ((List.sublist_append_right _ _).append_left _)
    have hsub : ∀ f ∈ js, Job.patternLists f.2 ⊆ patternLists doc := fun f hf ps hps =>
      List.mem_flatMap.mpr ⟨f, hjobs ▸ hf, hps⟩
    rw [← hsetup, hjobs]
    refine (leads_compileJobs hdiffer hrun hsub (by simp)).bind
      fun out => .assuming fun hout => leads_pure fun r _ => ?_
    obtain ⟨compiled, edits⟩ := out
    obtain ⟨hall, hwithin, -⟩ := hout
    dsimp only
    -- The mapping of jobs has a mark of its own.
    rw [jobs_put fun m hm hmem => ?_]
    · exact hall
    · have hm' : m ∈ mark.toList := Option.mem_toList.mpr hm
      obtain ⟨f, hf, hmem⟩ := Value.mem_marksOfFields.mp hmem
      rcases hwithin f hf m hmem with hmem | hmem
      · exact houter m hmem m (List.mem_append_left _ hm') rfl
      · exact hapart m hm' m hmem rfl

end Workflow

/-- **Jobs are independent** in a document without shared mappings. -/
theorem jobs_independent (hdoc : doc.marks.Nodup) :
    (∀ f ∈ Workflow.jobs doc, ∀ r, ∃ log,
      exec (Noting.compile (Workflow.setups doc) f.2) (r, []) =
        ((exec (Job.compile (Workflow.setups doc) f.2) r).1,
          (exec (Job.compile (Workflow.setups doc) f.2) r).2, log) ∧
      (Workflow.setups doc).applyAll log = Workflow.setups doc) ∧
    (∀ doc', Workflow.compile doc = .ok doc' → NamesDiffer (Workflow.patternLists doc) →
      List.Forall₂ (Workflow.Alone (Workflow.setups doc)) (Workflow.jobs doc)
        (Workflow.jobs doc')) := by
  refine ⟨fun f hf r => ?_, fun doc' hok hdiffer => ?_⟩
  · have hseparate := Workflow.mem_jobs hdoc hf
    obtain ⟨-, log, hlog, hexec⟩ := hseparate.noted_compile r [] trivial
    refine ⟨log, hexec, Value.applyAll_of_not_mem fun e he => ?_⟩
    exact hseparate.outside e.mark (hlog e he)
  · have hensures := Workflow.leads_compileIn hdoc hdiffer {} Registry.plain_empty
    rw [Workflow.compile] at hok
    exact hensures.of_ok (Prod.ext hok rfl)

/-- A document in which every mapping has a mark of its own. Both jobs use the tools, one of which
bails. -/
def Workflow.separateDoc : Value := .map (some 0) [
  ("setup", .map (some 1) [
    ("checkout", .list [.map (some 2) [("uses", .str "actions/checkout@v4")]]),
    ("tools", .map (some 3) [("setup", .str "checkout"), ("steps", .list [
      .map (some 4) [("run", .str "probe"), ("bail_if", .str "outputs.done")],
      .map (some 5) [("run", .str "make")]])])]),
  ("jobs", .map (some 6) [
    ("code", .map (some 7) [("steps", .list [
      .map (some 8) [("run", .str "build"), ("paths", .str "src/*"), ("setup", .str "tools")]])]),
    ("docs", .map (some 9) [("setup", .str "tools"), ("steps", .list [
      .map (some 10) [("run", .str "spell"), ("paths", .str "docs/*")]])])])]

theorem jobs_independent_sample : Workflow.separateDoc.marks.Nodup ∧
    NamesDiffer (Workflow.patternLists Workflow.separateDoc) ∧
    ∃ doc', Workflow.compile Workflow.separateDoc = .ok doc' ∧
      (Workflow.jobs doc').length = 2 ∧
      List.Forall₂ (Workflow.Alone (Workflow.setups Workflow.separateDoc))
        (Workflow.jobs Workflow.separateDoc) (Workflow.jobs doc') := by
  have hnodup : Workflow.separateDoc.marks.Nodup := by decide
  have hdiffer : NamesDiffer (Workflow.patternLists Workflow.separateDoc) := by
    unfold NamesDiffer
    decide +kernel
  have hlength : (Workflow.compile Workflow.separateDoc).toOption.map
      (fun doc' => (Workflow.jobs doc').length) = some 2 := by decide +kernel
  cases hok : Workflow.compile Workflow.separateDoc with
  | error e =>
    rw [hok] at hlength
    cases hlength
  | ok doc' =>
    rw [hok] at hlength
    exact ⟨hnodup, hdiffer, doc', rfl, Option.some.inj hlength,
      (jobs_independent hnodup).2 doc' hok hdiffer⟩

end StepLoom
