import StepLoom.Proofs.Apart
import StepLoom.Proofs.Graph.Noting
import StepLoom.Proofs.Graph.TwoTables
import StepLoom.Proofs.Sharing.Closed

/-!
# Setups that are not referenced do not matter

**Theorem (`compile_unreferenced`).** If two tables have the same definition, or both none, under
every name that is referenced from a job, then compiling the job does the same with either of them:
it gives the same job, takes the same step ids and makes the same edits, or fails for the same
fault. The references may be cyclic and the names undefined, and the rest of the tables may be
anything, in any order.

A step that also stands in a table changes there too when its extension keys are taken out, so what
a table has under a name can depend on how far the building of the graph has come. `Stage` says
which edits may have been made, and references and definitions are read at each stage. Two tables of
which neither stands anywhere else agree at each stage if they agree at the start
(`sameDefinitions_of_record`), and a job in which no mapping stands twice has no other stage
(`Stage.eq_nil`).

A table is only ever asked for definitions when setups are resolved, where two tables that agree
give the same program (`useSetup_agree`). So the programs that build the two graphs are equal too,
step by step.
-/

namespace StepLoom

open StepLoom.Graph
open Setup (Lists Agree)

/-! ## What is referenced -/

namespace Job

/-- Edits that may have been made when the table is asked for a setup: each step loses its `setup`
field and then its other extension keys, and the job loses its `setup` field in the end. -/
inductive Stage (job : Value) : List Edit → Prop
  | start : Stage job []
  | pop {log : List Edit} {step : Value} {paths : Option Value} {fields : Fields}
      (hlog : Stage job log) (hstep : step ∈ Job.steps job)
      (htake : (step.applyAll log).take "paths" = .ok (paths, fields)) :
      Stage job (log ++ ((step.applyAll log).withFields (Fields.erase "setup" fields)).2)
  | strip {log : List Edit} {step : Value} {paths : Option Value} {fields : Fields}
      (hlog : Stage job log) (hstep : step ∈ Job.steps job)
      (htake : (step.applyAll log).take "paths" = .ok (paths, fields)) :
      Stage job (log ++ ((step.applyAll log).withFields (stripped fields)).2)
  | shed {log : List Edit} {fields : Fields} (hlog : Stage job log)
      (hfields : (job.applyAll log).fieldsOf = .ok fields) (plains : List Value) :
      Stage job (log ++ (job.withFields (if (Value.given? (job.part "steps")).isSome
        then Fields.put "steps" (.list plains) (Fields.erase "setup" fields)
        else Fields.erase "setup" fields)).2)

/-- The names that are referenced from a job: those that the job or a step lists, and those that the
definition of a referenced name lists. -/
inductive Referenced (table job : Value) : Value → Prop
  | job {log : List Edit} {name : Value} (hlog : Stage job log)
      (h : Lists (job.applyAll log) name) : Referenced table job name
  | step {log : List Edit} {step name : Value} (hlog : Stage job log) (hstep : step ∈ Job.steps job)
      (h : Lists (step.applyAll log) name) : Referenced table job name
  | setup {log : List Edit} {name definition n : Value} (hlog : Stage job log)
      (hname : Referenced table job name)
      (hfound : Setup.find? (table.applyAll log) name = .ok (some definition))
      (h : Lists definition n) : Referenced table job n

/-- Two tables that give the same definition, or both none, to every name that is referenced. -/
structure SameDefinitions (table table' job : Value) : Prop where
  isMap : table.isMap
  isMap' : table'.isMap
  find? : ∀ name, Referenced table job name → ∀ log, Stage job log →
    Setup.find? (table.applyAll log) name = Setup.find? (table'.applyAll log) name

end Job

open Job

variable {table table' job step name : Value} {log : List Edit} {index : Nat}

/-! ## Stages -/

theorem Value.applyAll_record (fields : Fields) (edits : List Edit) :
    (record fields).applyAll edits = .record (fields.applyAll edits) := by
  induction edits generalizing fields with
  | nil => rw [Fields.applyAll_nil, Value.applyAll_nil]
  | cons e rest ih =>
    have hsplit : fields.applyAll (e :: rest) = (fields.applyAll [e]).applyAll rest := by
      rw [← Fields.applyAll_append]
      rfl
    have hone : (record fields).assign e.mark e.fields = .record (fields.applyAll [e]) := by
      rw [record, assign, if_neg nofun, assignFields_eq]
    rw [hsplit, ← ih, ← hone]
    rfl

/-- Edits are made in what a table has and leave it otherwise alone. So two tables that stand
nowhere else and agree before the first edit agree at each stage. -/
theorem sameDefinitions_of_record {fields fields' : Fields}
    (h : ∀ name, Referenced (.record fields) job name →
      Setup.find? (.record fields) name = Setup.find? (.record fields') name) :
    SameDefinitions (.record fields) (.record fields') job where
  isMap := rfl
  isMap' := rfl
  find? name hname log _ := by
    have hname := h name hname
    have hrecord (fs : Fields) : (Value.record fs).fields? = some fs := rfl
    rw [Setup.find?_of_fields? (hrecord _), Setup.find?_of_fields? (hrecord _)] at hname
    rw [Value.applyAll_record, Value.applyAll_record, Setup.find?_of_fields? (hrecord _),
      Setup.find?_of_fields? (hrecord _)]
    cases hk : name.key? with
    | none => rfl
    | some k =>
      rw [hk] at hname
      dsimp only at hname ⊢
      rw [Fields.get?_applyAll, Fields.get?_applyAll, Except.ok.inj hname]

/-- The edits of an unmarked job reach no other place. -/
theorem Job.Stage.eq_nil (hjob : job.Unmarked) (h : Stage job log) : log = [] := by
  have hnil : ∀ {v : Value} {fields : Fields}, (∀ m, v.mark? = some m → m ∈ job.marks) →
      (v.withFields fields).2 = [] := fun hv => List.eq_nil_iff_forall_not_mem.mpr fun e he => by
    have hmem := hv e.mark (Value.mark_of_withFields he)
    rw [hjob] at hmem
    cases hmem
  have hstep : ∀ {step : Value} {log : List Edit}, step ∈ Job.steps job →
      ∀ m, (step.applyAll log).mark? = some m → m ∈ job.marks := fun hmem m hm =>
    within_of_mem_steps hmem m (Value.mem_marks_of_mark? (Value.mark?_applyAll.symm.trans hm))
  induction h with
  | start => rfl
  | pop _ hmem _ ih => rw [hnil (hstep hmem), ih]; rfl
  | strip _ hmem _ ih => rw [hnil (hstep hmem), ih]; rfl
  | shed _ _ _ ih => rw [hnil fun m => Value.mem_marks_of_mark?, ih]; rfl

/-- All names that are referenced are among some, if nothing leads out of these. -/
theorem Job.Referenced.mem {S : Value → Prop} (hjob : job.Unmarked)
    (hlisted : ∀ v ∈ job :: Job.steps job, ∀ n, Lists v n → S n)
    (hclosed : ∀ a d, S a → Setup.find? table a = .ok (some d) → ∀ n, Lists d n → S n)
    (h : Referenced table job name) : S name := by
  induction h with
  | job hlog h =>
    obtain rfl := hlog.eq_nil hjob
    exact hlisted job (by simp) _ h
  | step hlog hstep h =>
    obtain rfl := hlog.eq_nil hjob
    exact hlisted _ (List.mem_cons_of_mem job hstep) _ h
  | setup hlog _ hfound h ih =>
    obtain rfl := hlog.eq_nil hjob
    exact hclosed _ _ ih hfound _ h

/-- At each stage, two tables agree on the names that are referenced. -/
theorem agree_of_sameDefinitions (h : SameDefinitions table table' job) (hlog : Stage job log) :
    Agree (Referenced table job) (table.applyAll log) (table'.applyAll log) where
  fields := Value.fields?_of_isMap (Value.isMap_applyAll.trans h.isMap)
  fields' := Value.fields?_of_isMap (Value.isMap_applyAll.trans h.isMap')
  find? name hname := h.find? name hname log hlog
  closed _ _ hname hfound _ hn := .setup hlog hname hfound hn

/-! ## Steps -/

/-- What is left of a step, and the edit that this means. -/
def Sheds (step : Value) (a : Value × List Edit) : Prop :=
  ∃ paths fields, step.take "paths" = .ok (paths, fields) ∧ a = step.withFields (stripped fields)

theorem answers_enterStep {P : Value × List Edit → Prop} {content : Value}
    {popped plain : Value × List Edit} {setup : Option Value} {pathIds : List String}
    (h : P plain) :
    Answers P (enterStep table index content popped plain setup pathIds) := by
  refine answers_behind fun _ => answers_behind fun _ => answers_behind fun _ => ?_
  refine answers_behind fun _ => answers_behind fun _ => answers_behind fun _ => ?_
  refine answers_behind fun _ => ?_
  split_ifs
  · exact answers_behind fun _ => answers_pure h
  · exact answers_pure h

theorem answers_addStep : Answers (Sheds step) (addStep table index step) := by
  rw [addStep_eq]
  refine answers_liftM.bind fun (paths, fields) htake => answers_behind fun ids => ?_
  exact answers_enterStep ⟨paths, fields, htake, rfl⟩

theorem addStep_agree (h : SameDefinitions table table' job) (hlog : Stage job log)
    (hstep : step ∈ Job.steps job) :
    addStep (table.applyAll log) index (step.applyAll log) =
      addStep (table'.applyAll log) index (step.applyAll log) := by
  rw [addStep_eq, addStep_eq]
  refine answers_liftM.bind_congr fun (paths, fields) htake => ?_
  have hagree := agree_of_sameDefinitions h (hlog.pop hstep htake)
  rw [Value.applyAll_append, Value.applyAll_append] at hagree
  have hlisted : ∀ names, Value.oneOrMany (Fields.get? "setup" fields) = .ok names →
      ∀ n ∈ names, Referenced table job n := fun names hnames n hn =>
    .step hlog hstep ⟨names, by rw [Value.part_of_take_ne htake (by decide)]; exact hnames, hn⟩
  dsimp only
  simp only [enterStep, awaitSetups_agree hagree hlisted]

/-- The log of some more steps leads to a stage again. -/
theorem answers_addSteps (hlog : Stage job log) {vs : List Value}
    (hsteps : ∀ v ∈ vs, v ∈ Job.steps job) :
    Answers (fun a => Stage job (log ++ a.2)) (addSteps table index vs log) := by
  induction vs generalizing index log with
  | nil => exact answers_pure (by simpa using hlog)
  | cons v rest ih =>
    have hsteps := List.forall_mem_cons.mp hsteps
    refine answers_addStep.bind ?_
    rintro ⟨plain, edits⟩ ⟨paths, fields, htake, heq⟩
    have hstage : Stage job (log ++ edits) := by
      rw [show edits = ((v.applyAll log).withFields (stripped fields)).2 by rw [← heq]]
      exact hlog.strip hsteps.1 htake
    refine (ih hstage hsteps.2).bind fun (plains, more) hmore => answers_pure ?_
    rwa [← List.append_assoc]

theorem addSteps_agree (h : SameDefinitions table table' job) (hlog : Stage job log)
    {vs : List Value} (hsteps : ∀ v ∈ vs, v ∈ Job.steps job) :
    addSteps table index vs log = addSteps table' index vs log := by
  induction vs generalizing index log with
  | nil => rfl
  | cons v rest ih =>
    have hsteps := List.forall_mem_cons.mp hsteps
    rw [addSteps, addSteps, ← addStep_agree h hlog hsteps.1]
    refine answers_addStep.bind_congr ?_
    rintro ⟨plain, edits⟩ ⟨paths, fields, htake, heq⟩
    have hstage : Stage job (log ++ edits) := by
      rw [show edits = ((v.applyAll log).withFields (stripped fields)).2 by rw [← heq]]
      exact hlog.strip hsteps.1 htake
    dsimp only
    rw [ih hstage hsteps.2]

/-! ## Jobs -/

theorem enterJob_agree (h : SameDefinitions table table' job) (hlog : Stage job log)
    {source : Option Value} (hsource : Value.given? (job.part "steps") = source)
    (plains : List Value) :
    enterJob table job source plains log = enterJob table' job source plains log := by
  subst hsource
  refine answers_liftM.bind_congr fun fields hfields => ?_
  have hagree := agree_of_sameDefinitions h (hlog.shed hfields plains)
  have hlisted : ∀ names, Value.oneOrMany (Fields.get? "setup" fields) = .ok names →
      ∀ n ∈ names, Referenced table job n := fun names hnames n hn =>
    .job hlog ⟨names, by rw [Value.part, Value.fields?_of_fieldsOf hfields]; exact hnames, hn⟩
  dsimp only
  generalize job.withFields (if (Value.given? (job.part "steps")).isSome
    then Fields.put "steps" (.list plains) (Fields.erase "setup" fields)
    else Fields.erase "setup" fields) = made at hagree ⊢
  obtain ⟨plain, edits⟩ := made
  dsimp only at hagree ⊢
  split_ifs
  · rw [awaitSetups_agree hagree hlisted]
  · refine congrArg _ (funext fun _ => answers_liftM.bind_congr fun names hnames => ?_)
    rw [useSetups_agree hagree (hlisted names hnames)]

/-- **The two graphs are built by one program.** -/
theorem addJob_agree (h : SameDefinitions table table' job) :
    addJob table job = addJob table' job := by
  refine answers_liftM.bind_congr fun field hfield => ?_
  obtain rfl := Value.part_of_field? hfield
  dsimp only
  cases hsource : Value.given? (job.part "steps") with
  | none =>
    rw [pure_bind]
    exact enterJob_agree h .start hsource []
  | some source =>
    refine answers_liftM.bind_congr fun vs hvs => ?_
    obtain rfl := Job.steps_of_given hsource hvs
    rw [← addSteps_agree h .start fun _ hv => hv]
    refine (answers_addSteps .start fun _ hv => hv).bind_congr fun (plains, log) hlog => ?_
    exact enterJob_agree h hlog hsource plains

/-- **Setups that are not referenced do not matter.** -/
theorem compile_unreferenced (h : SameDefinitions table table' job) :
    Job.compile table job = Job.compile table' job := by
  have hgraph : ofJob table job = ofJob table' job := by
    rw [ofJob, ofJob, addJob_agree h]
  rw [Job.compile, Job.compile, hgraph]

/-- Setups that need each other, and one that is not defined. -/
def knottedTools : Fields := [("node", .record [("setup", .list [.str "tools", .str "gone"])]),
  ("tools", .record [("setup", .str "node"), ("steps", .list [])])]

def knottedStep : Value :=
  .record [("run", .str "make"), ("paths", .str "src/*"), ("setup", .str "node")]

def knottedJob : Value := .record [("setup", .str "tools"), ("steps", .list [knottedStep])]

/-- Other setups, and the same ones in another order. -/
def moreTools : Fields := ("docs", .record [("setup", .str "nowhere")]) :: knottedTools.reverse

theorem compile_unreferenced_knotted :
    SameDefinitions (.record knottedTools) (.record moreTools) knottedJob ∧
      Job.compile (.record knottedTools) knottedJob =
        Job.compile (.record moreTools) knottedJob := by
  have hmem : ∀ name, Referenced (.record knottedTools) knottedJob name →
      name ∈ [Value.str "tools", .str "node", .str "gone"] := fun name h => by
    have hjob : knottedJob.Unmarked := rfl
    refine h.mem (S := (· ∈ [Value.str "tools", .str "node", .str "gone"])) hjob ?_ ?_
    · have hsteps : Job.steps knottedJob = [knottedStep] := rfl
      rw [hsteps]
      intro v hv n hn
      simp only [List.mem_cons, List.not_mem_nil, or_false] at hv ⊢
      obtain rfl | rfl := hv
      · exact Or.inl (List.mem_singleton.mp (hn.mem rfl))
      · exact Or.inr (Or.inl (List.mem_singleton.mp (hn.mem rfl)))
    · intro a d ha hd n hn
      simp only [List.mem_cons, List.not_mem_nil, or_false] at ha ⊢
      obtain rfl | rfl | rfl := ha
      · obtain rfl := Option.some.inj (Except.ok.inj hd)
        exact Or.inr (Or.inl (List.mem_singleton.mp (hn.mem rfl)))
      · obtain rfl := Option.some.inj (Except.ok.inj hd)
        have hpair : n ∈ [Value.str "tools", .str "gone"] := hn.mem rfl
        simp only [List.mem_cons, List.not_mem_nil, or_false] at hpair
        exact hpair.imp_right Or.inr
      · cases hd
  have hsame : SameDefinitions (.record knottedTools) (.record moreTools) knottedJob :=
    sameDefinitions_of_record fun name h => by
      have hname := hmem name h
      simp only [List.mem_cons, List.not_mem_nil, or_false] at hname
      obtain rfl | rfl | rfl := hname <;> rfl
  exact ⟨hsame, compile_unreferenced hsame⟩

end StepLoom
