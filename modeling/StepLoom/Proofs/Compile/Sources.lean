import StepLoom.Proofs.Check
import StepLoom.Proofs.Compile.Copies
import StepLoom.Proofs.Compile.Noting
import StepLoom.Proofs.Compile.Phases
import StepLoom.Proofs.Graph.Regular
import StepLoom.Proofs.Sharing.Graph

/-!
# Where compiled steps come from

Each block of a compiled job has one source: a step of the job, a definition under a name that the
job uses, or the patterns of a step. Nothing is assumed of the names of setups. Two names that are
displayed alike share a node, which holds the definition that was looked up first.

**Theorem (`assembled_of_compile`).** If a job compiles whose steps stand at one place, its steps
are the blocks of distinct nodes, each of them from its source, after bail conditions are resolved.
-/

namespace StepLoom

open StepLoom.Graph

/-- The field of a step once the step is copied. -/
def Value.entry (key : Scalar) (v : Value) : Option Value :=
  match v.asFields with
  | .ok fields => Fields.get? key fields
  | .error _ => none

/-! ## Sources -/

namespace Job

/-- The job and its steps stand at one place only. -/
structure StandAlone (job : Value) : Prop where
  itself : job.StandsAlone
  each : ∀ step ∈ steps job, step.StandsAlone

/-- The names of setups that a job uses: it or one of its steps lists them, or a definition under
such a name does. -/
inductive Used (table job : Value) : Value → Prop
  | step {step name : Value} {names : List Value} (hstep : step ∈ steps job)
      (hnames : Value.oneOrMany (step.part "setup") = .ok names) (hname : name ∈ names) :
      Used table job name
  | job {name : Value} {names : List Value}
      (hnames : Value.oneOrMany (job.part "setup") = .ok names) (hname : name ∈ names) :
      Used table job name
  | need {name definition n : Value} {names : List Value} (hname : Used table job name)
      (hfound : Setup.find? table name = .ok (some definition))
      (hnames : Value.oneOrMany (definition.part "setup") = .ok names) (hn : n ∈ names) :
      Used table job n

/-- A step of a setup that the job uses. -/
def SetupStep (table job step : Value) : Prop :=
  ∃ name definition items, Used table job name ∧ Setup.find? table name = .ok (some definition) ∧
    Setup.steps definition = .ok items ∧ step ∈ items

/-- A definition that is found in a table stands in it. -/
theorem mem_of_find? {table : Fields} {name definition : Value}
    (h : Setup.find? (.record table) name = .ok (some definition)) :
    ∃ k, (k, definition) ∈ table := by
  obtain ⟨found, -, h⟩ := bind_eq_ok.mp h
  split_ifs at h
  · obtain ⟨v, hv, h⟩ := bind_eq_ok.mp h
    obtain rfl := Option.some.inj (Except.ok.inj h)
    have hfields : (Value.record table).fields? = some table := rfl
    simp only [Value.lookUp, hfields] at hv
    split at hv
    · cases hv
    · split at hv
      · next hget => exact Fields.mem_of_get? (hget.trans (congrArg some (Except.ok.inj hv)))
      · cases hv
  · cases h

/-- What the nodes of a job's graph hold. -/
inductive Source (table job : Value) : String → Kind → Value → Prop
  | step {i : Nat} {step : Value} {fields : Fields} (hi : (steps job)[i]? = some step)
      (hfields : step.fields? = some fields) : Source table job (stepId i) .step (Step.plain step)
  | setup {name definition : Value} {text : String} (hname : Used table job name)
      (htext : name.text = .ok text) (hfound : Setup.find? table name = .ok (some definition)) :
      Source table job (setupId text) .setup definition
  | paths {step : Value} (hstep : step ∈ steps job) (hne : Step.patterns step ≠ []) :
      Source table job (Check.nodeId (Step.patterns step)) .paths
        (.list ((Check.sortTexts (Step.patterns step)).map .str))

/-- The step id belongs to the patterns of a path check, which stands at a node. -/
inductive Checked (r : Registry) (job : Value) : String → String → Prop
  | intro {step : Value} {id : String} (hstep : step ∈ steps job)
      (hne : Step.patterns step ≠ []) (hid : Registry.IsCandidate id)
      (howner : r.owner? id = some (Check.sortTexts (Step.patterns step))) :
      Checked r job (Check.nodeId (Step.patterns step)) id

end Job

open Job

variable {table job job' step : Value} {paths : Option Value} {fields : Fields} {i : Nat}
  {edits : List Edit}

theorem Value.StandsAlone.mark? {v : Value} (h : v.StandsAlone) : v.mark? = none := by
  cases v with
  | map m fs =>
    cases m with
    | none => rfl
    | some m => exact absurd rfl (h m fs)
  | _ => rfl

theorem Value.EditsOf.eq_nil {vs : List Value} (h : EditsOf vs edits)
    (halone : ∀ v ∈ vs, v.StandsAlone) : edits = [] := by
  refine List.eq_nil_iff_forall_not_mem.mpr fun e he => ?_
  obtain ⟨v, hv, hmark, -⟩ := h e he
  rw [(halone v hv).mark?] at hmark
  cases hmark

/-- What a step without its paths and its other extension keys is. -/
theorem Step.plain_eq (h : step.StandsAlone) (htake : step.take "paths" = .ok (paths, fields)) :
    (step.withFields (stripped fields)).1 = Step.plain step := by
  obtain ⟨fs, hfs, -, rfl⟩ := Value.exists_fields_of_take htake
  rw [h.withFields, Step.plain, hfs]
  rfl

namespace Job

theorem steps_record {vs : List Value} (h : Fields.get? "steps" fields = some (.list vs)) :
    steps (.record fields) = vs := by
  have hpart : (Value.record fields).part "steps" = some (.list vs) := h
  rw [steps, hpart]
  cases vs <;> rfl

theorem serves_used (table job : Value) : Serves (Source table job) (Used table job) table where
  holds hname htext hfound := .setup hname htext hfound
  needs {name definition fields names} hname hfound hfields hnames n hn := by
    have hlist : Value.oneOrMany (definition.part "setup") = .ok names := by
      rwa [Value.part, hfields]
    exact .need hname hfound hlist hn

namespace StandAlone

variable (h : StandAlone job)

include h

theorem admits (hi : (steps job)[i]? = some step)
    (htake : step.take "paths" = .ok (paths, fields)) :
    Admits (fun _ => False) (Source table job) (Used table job) table i step paths fields := by
  have hmem := List.mem_of_getElem? hi
  have halone := h.each step hmem
  obtain ⟨fs, hfs, -, rfl⟩ := Value.exists_fields_of_take htake
  refine ⟨fun m hm => ?_, fun k v hv => ?_, ?_, fun p rest texts hvs htexts => ?_,
    fun names hnames n hn => ?_, ?_, fun fs _ x k v hv => ?_⟩
  · rw [halone.mark?] at hm
    cases hm
  · generalize hx : stepId i = x at hv
    cases hv with
    | step => rfl
    | setup => exact absurd hx.symm setupId_ne_stepId
    | paths => exact absurd hx stepId_ne_nodeId
  · rw [Step.plain_eq halone htake]
    exact .step hi hfs
  · obtain rfl := patterns_of_take htake hvs htexts
    rw [Check.nodeId_sortTexts]
    refine .paths hmem fun hnil => ?_
    rw [hnil] at htexts
    cases eq_map_of_strings htexts
  · rw [← Value.part_of_take_ne htake (by decide)] at hnames
    exact .step hmem hnames hn
  · rw [halone.withFields]
    exact serves_used table job
  · rw [halone.withFields]
    exact hv

theorem jobAdmits (table : Value) :
    JobAdmits (fun _ => False) (Source table job) (Used table job) table job := by
  have havoids : ∀ v ∈ job :: steps job, ∀ w, v.Avoids w := by
    intro v hv w m hm
    have halone : v.StandsAlone := (List.forall_mem_cons.mpr ⟨h.itself, h.each⟩ : ∀ v ∈ _, _) v hv
    rw [halone.mark?] at hm
    cases hm
  refine ⟨fun m hm => ?_, fun i step hi _ _ htake => h.admits hi htake, ?_,
    fun v hv => havoids v hv table, fun log fields names hlog hfields hnames n hn => ?_,
    serves_used table job, fun fs _ x k v hv => ?_⟩
  · rw [h.itself.mark?] at hm
    cases hm
  · refine List.pairwise_of_forall_mem_list fun v hv w hw => ?_
    exact ⟨havoids v (List.mem_cons_of_mem job hv) w, havoids w (List.mem_cons_of_mem job hw) v⟩
  · obtain rfl := hlog.eq_nil h.each
    have hpart : job.part "setup" = Fields.get? "setup" fields := by
      rw [Value.part, show job.fields? = some fields from Value.fields?_of_fieldsOf hfields]
      rfl
    exact .job (hpart ▸ hnames) hn
  · rw [h.itself.withFields]
    exact hv

end StandAlone

/-- What is left of a job that stands alone. -/
theorem StandAlone.shed (h : StandAlone job) {plain : Value} (hshed : Shed job plain) :
    ∃ fields plains, job.fields? = some fields ∧
      plain = .record (if (Value.given? (job.part "steps")).isSome
        then Fields.put "steps" (.list plains) (Fields.erase "setup" fields)
        else Fields.erase "setup" fields) := by
  obtain ⟨log, fields, plains, hlog, hfields, -, rfl⟩ := hshed
  obtain rfl := hlog.eq_nil h.each
  refine ⟨fields, plains, Value.fields?_of_fieldsOf hfields, ?_⟩
  rw [h.itself.withFields]

end Job

/-! ## Blocks -/

namespace Block

variable {g : Graph} {x : String} {b : List Value} {outs : List (String × String)}

/-- The block of a node and its source, given the step ids of path checks. -/
inductive From (table job : Value) (outs : List (String × String)) : String → List Value → Prop
  | step {i : Nat} {step v : Value} {fields : Fields} {c : Option String}
      (hi : (Job.steps job)[i]? = some step) (hfields : step.fields? = some fields)
      (hv : Gate.guardWith c (Step.plain step) = .ok v) : From table job outs (stepId i) [v]
  | setup {name definition : Value} {text : String} {c : Option String} {b : List Value}
      (hname : Used table job name) (htext : name.text = .ok text)
      (hfound : Setup.find? table name = .ok (some definition))
      (hb : ofSetup text definition c = .ok b) : From table job outs (setupId text) b
  | paths {step v : Value} {outId : String} {check : Fields} {c : Option String}
      (hstep : step ∈ Job.steps job) (hne : Step.patterns step ≠ [])
      (hout : (Check.nodeId (Step.patterns step), outId) ∈ outs)
      (hcheck : Check.step outId (Check.sortTexts (Step.patterns step)) = .ok check)
      (hv : Gate.guardWith c (.record check) = .ok v) :
      From table job outs (Check.nodeId (Step.patterns step)) [v]

theorem isRecord_plain (h : step.fields? = some fields) : (Step.plain step).IsRecord := by
  rw [Step.plain, h]
  exact ⟨_, rfl⟩

theorem BlockOf.origin (h : BlockOf g outs x b) (hg : Contents (Source table job) g) :
    From table job outs x b := by
  have hnode : ∀ {n}, g.find? x = some n → Source table job x n.kind n.content := by
    intro n hn
    obtain rfl := Graph.id_of_find? hn
    exact hg n (List.mem_of_find?_eq_some hn)
  cases h with
  | paths hn hk hc hp ho hs hv =>
    have hsource := hnode hn
    rw [hk] at hsource
    generalize Node.content _ = content at hsource hp
    cases hsource with
    | paths hstep hne =>
      obtain rfl := Except.ok.inj ((Graph.strings_map _).symm.trans hp)
      exact .paths hstep hne ho hs hv
  | setup hn hk hc hs =>
    have hsource := hnode hn
    rw [hk] at hsource
    generalize Node.content _ = content at hsource hs
    cases hsource with
    | setup hname htext hfound =>
      rw [drop_setupId] at hs
      exact .setup hname htext hfound hs
  | step hn hk hc hv =>
    have hsource := hnode hn
    rw [hk] at hsource
    generalize Node.content _ = content at hsource hv
    cases hsource with
    | step hi hfields => exact .step hi hfields hv

theorem checked_of_owned {r : Registry} {ids : List String} (hg : Contents (Source table job) g)
    (hids : StepIds outs ids) (h : Owned g r outs) : ∀ p ∈ outs, Checked r job p.1 p.2 := by
  intro p hp
  obtain ⟨n, patterns, hn, hk, hpatterns, howner⟩ := h p hp
  have hsource := hg n (List.mem_of_find?_eq_some hn)
  rw [hk, Graph.id_of_find? hn] at hsource
  have hcandidate := hids.names p hp
  generalize p.1 = x, n.content = content at hsource hpatterns
  cases hsource with
  | @paths step hstep hne =>
    obtain rfl := Except.ok.inj ((Graph.strings_map _).symm.trans hpatterns)
    exact ⟨hstep, hne, hcandidate, howner⟩

theorem From.isRecord (h : From table job outs x b) : ∀ v ∈ b, v.IsRecord := by
  cases h with
  | step _ hfields hv => simpa using (guardWith_ok hv (isRecord_plain hfields)).isRecord
  | setup _ _ _ hb =>
    obtain ⟨items, -, hof⟩ := ofSetup_ok hb
    exact hof.isRecord
  | paths _ _ _ _ hv => simpa using (guardWith_ok hv ⟨_, rfl⟩).isRecord

end Block

/-! ## Compiled jobs -/

/-- A compiled job: from distinct nodes `ids`, with the step ids `outs` of path checks, over the
gated `blocks`, which are `resolved`. -/
structure Assembled (table job job' : Value) (ids : List String) (outs : List (String × String))
    (blocks : List (List Value)) (resolved : List Value) : Prop where
  nodup : ids.Nodup
  known : Block.StepIds outs ids
  each : List.Forall₂ (Block.From table job outs) ids blocks
  gated : ∀ v ∈ blocks.flatten, v.IsRecord
  bails : Bail.Resolves 1 blocks.flatten resolved
  job : ∃ fields fields', job.fields? = some fields ∧ job' = .record fields' ∧
    Fields.get? "setup" fields' = Fields.get? "setup" (Fields.erase "setup" fields) ∧
    Fields.get? "steps" fields' = some (.list (resolved.map Bail.dropped))

/-- A job that compiles has a graph, and its nodes have an order. -/
theorem ordered_of_compile {r r' : Registry}
    (h : exec (Job.compile table job) r = (.ok (job', edits), r')) :
    ∃ g left ids, Graph.ofJob table job = .ok (g, left) ∧ g.order = .ok ids := by
  rw [exec_compile] at h
  cases hof : Graph.ofJob table job with
  | error e => rw [hof] at h; cases h
  | ok made =>
    obtain ⟨g, left⟩ := made
    cases ho : g.order with
    | error e =>
      rw [hof] at h
      dsimp only at h
      rw [ho] at h
      cases h
    | ok ids => exact ⟨g, left, ids, rfl, ho⟩

/-- The blocks of a compiled job stand in the order of its nodes. -/
theorem assembled_of_order {r r' : Registry} {g : Graph} {left : Value × List Edit}
    {ids : List String} (halone : StandAlone job) (hof : Graph.ofJob table job = .ok (g, left))
    (ho : g.order = .ok ids) (h : exec (Job.compile table job) r = (.ok (job', edits), r')) :
    edits = [] ∧ ∃ outs blocks resolved, Assembled table job job' ids outs blocks resolved ∧
      ∀ p ∈ outs, Checked r' job p.1 p.2 := by
  obtain ⟨plain, log⟩ := left
  obtain ⟨hcontents, hshed, hlog⟩ := ofJob_ok (halone.jobAdmits table) hof
  obtain ⟨fields, plains, hfields, rfl⟩ := halone.shed hshed
  obtain rfl := hlog.eq_nil (List.forall_mem_cons.mpr ⟨halone.itself, halone.each⟩)
  have hscoped := Graph.scoped_of_ofJob hof
  rw [exec_compile, hof] at h
  dsimp only at h
  rw [ho] at h
  dsimp only at h
  rcases hj : exec (Block.join g ids) r with ⟨e | gated, r₁⟩
  · rw [hj] at h
    cases h
  · rw [hj] at h
    obtain ⟨hfinish, rfl⟩ := Prod.mk.inj h
    obtain ⟨blocks, outs, rfl, hids, hblocks, howned, -⟩ := Block.joinFrom_owned hj
    have heach : List.Forall₂ (Block.From table job outs) ids blocks :=
      hblocks.imp fun _ _ hof => hof.origin hcontents
    have hgated : ∀ v ∈ blocks.flatten, v.IsRecord := by
      intro v hv
      obtain ⟨b, hb, hvb⟩ := List.mem_flatten.mp hv
      obtain ⟨x, -, hfrom⟩ := forall₂_exists_left heach hb
      exact hfrom.isRecord v hvb
    obtain ⟨⟨steps, edits'⟩, hb, hfinish⟩ := bind_eq_ok.mp hfinish
    obtain ⟨resolved, hres, hbails⟩ := Bail.resolveAll_ok hgated hb
    obtain ⟨rfl, rfl⟩ := Prod.mk.inj hres
    obtain ⟨rfl, rfl⟩ := Prod.mk.inj (Except.ok.inj hfinish)
    have hsetup : Fields.get? "setup" (if (Value.given? (job.part "steps")).isSome
        then Fields.put "steps" (.list plains) (Fields.erase "setup" fields)
        else Fields.erase "setup" fields) = Fields.get? "setup" (Fields.erase "setup" fields) := by
      split_ifs
      · exact Fields.get?_put_ne (by decide)
      · rfl
    refine ⟨rfl, outs, blocks, resolved, ⟨(Graph.order_ok hscoped.wf ho).1, hids, heach,
      hgated, hbails, fields, _, hfields, rfl, ?_, Fields.get?_put_self⟩, fun p hp => ?_⟩
    · exact (Fields.get?_put_ne (by decide)).trans hsetup
    · exact Block.checked_of_owned hcontents hids howned p hp

/-- **A compiled job has its steps from their sources**, and nothing else was edited. -/
theorem assembled_of_compile {r r' : Registry} (halone : StandAlone job)
    (h : exec (Job.compile table job) r = (.ok (job', edits), r')) :
    edits = [] ∧ ∃ ids outs blocks resolved, Assembled table job job' ids outs blocks resolved ∧
      ∀ p ∈ outs, Checked r' job p.1 p.2 := by
  obtain ⟨g, left, ids, hof, ho⟩ := ordered_of_compile h
  obtain ⟨hedits, hassembled⟩ := assembled_of_order halone hof ho h
  exact ⟨hedits, ids, hassembled⟩

end StepLoom
